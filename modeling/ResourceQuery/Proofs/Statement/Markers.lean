import ResourceQuery.Proofs.Statement.Expression

set_option autoImplicit false

/-!
# Statements: markers and the values they stand for

The markers of a predicate, read from left to right, are numbered one after the
other from the first value that was bound for it, and each stands beside the
column that its value was bound for.  The property passes from every step of the
compilers to the steps that are made of it, so it is stated of steps: a step
*issues* the markers of what it gives.

The compilers are gone through twice, for predicates and for computed columns,
each time by induction over the term along the forms of a run.  The invariant is
`Issued`; it composes, so the step for a term that holds others is the sequence
of theirs.
-/

namespace ResourceQuery

variable {σ C : Type}

/-! ## The markers of predicates and expressions -/

mutual

/-- The markers of a predicate from left to right, each with its column. -/
def Predicate.slots : Predicate C → List (C × Nat)
  | all parts => slotsAll parts
  | any parts => slotsAll parts
  | negation part => slots part
  | choice condition whenTrue whenFalse =>
    slots condition ++ (slots whenTrue ++ slots whenFalse)
  | comparison _ column marker => [(column, marker)]
  | membership _ column markers => markers.map fun marker => (column, marker)
  | nullity _ _ => []
  | blankness _ column marker => marker.toList.map fun marker => (column, marker)
  | text _ _ column marker => [(column, marker)]

/-- The markers of predicates from left to right. -/
def Predicate.slotsAll : List (Predicate C) → List (C × Nat)
  | [] => []
  | part :: parts => slots part ++ slotsAll parts

end

theorem Predicate.slotsAll_eq_flatMap (parts : List (Predicate C)) :
    slotsAll parts = parts.flatMap slots := by
  induction parts with
  | nil => rw [slotsAll, List.flatMap_nil]
  | cons part parts ih => rw [slotsAll, ih, List.flatMap_cons]

theorem Predicate.slots_all (parts : List (Predicate C)) :
    (all parts).slots = parts.flatMap slots := by
  rw [slots, slotsAll_eq_flatMap]

theorem Predicate.slots_any (parts : List (Predicate C)) :
    (any parts).slots = parts.flatMap slots := by
  rw [slots, slotsAll_eq_flatMap]

theorem Predicate.slots_allOf (parts : List (Predicate C)) :
    (allOf parts).slots = parts.flatMap slots := by
  unfold allOf
  split
  · rw [List.flatMap_singleton]
  · exact slots_all parts

theorem Predicate.slots_anyOf (parts : List (Predicate C)) :
    (anyOf parts).slots = parts.flatMap slots := by
  unfold anyOf
  split
  · rw [List.flatMap_singleton]
  · exact slots_any parts

/-- The predicate says one thing of the column, with one marker. -/
inductive Predicate.Elementary (c : C) (k : Nat) : Predicate C → Prop where
  | comparison (op : Comparison) : Elementary c k (.comparison op c k)
  | text (test : TextTest) (negated : Bool) : Elementary c k (.text test negated c k)

/-- An elementary predicate has one marker, beside its column. -/
theorem Predicate.Elementary.slots_eq {c : C} {k : Nat} {q : Predicate C} (h : q.Elementary c k) :
    q.slots = [(c, k)] := by
  cases h with
  | comparison op => rw [slots]
  | text test negated => rw [slots]

/-- The markers of an expression from left to right, each with its column. -/
def Expression.slots : Expression C → List (C × Nat)
  | everything => []
  | column _ => []
  | numeral _ => []
  | aggregate _ argument => argument.slots
  | choice condition whenTrue whenFalse =>
    condition.slots ++ (whenTrue.slots ++ whenFalse.slots)

/-! ## Numbering -/

/-- The markers are numbered from `n + 1` on, and each stands beside a column
that the path of the value in its place names. -/
inductive Numbered (names : C → String → Prop) : Nat → List (C × Nat) → Bindings → Prop where
  | nil {n : Nat} : Numbered names n [] []
  | cons {n : Nat} {c : C} {path : String} {value : Value} {slots : List (C × Nat)}
      {bound : Bindings} (hname : names c path) (h : Numbered names (n + 1) slots bound) :
      Numbered names n ((c, n + 1) :: slots) ((path, value) :: bound)

namespace Numbered

variable {names : C → String → Prop} {n : Nat} {slots slots' : List (C × Nat)}
  {bound bound' : Bindings}

theorem append (h : Numbered names n slots bound)
    (h' : Numbered names (n + bound.length) slots' bound') :
    Numbered names n (slots ++ slots') (bound ++ bound') := by
  induction h with
  | nil => exact h'
  | @cons n c path value slots bound hname _ ih =>
    refine .cons hname (ih ?_)
    rw [List.length_cons] at h'
    rwa [Nat.add_right_comm, Nat.add_assoc]

/-- The numbers are consecutive, one for each value. -/
theorem numbers_eq (h : Numbered names n slots bound) :
    slots.map Prod.snd = List.range' (n + 1) bound.length := by
  induction h with
  | nil => rfl
  | cons _ _ ih => rw [List.map_cons, ih, List.length_cons, List.range'_succ]

/-- The value in the place of a marker was bound for the column beside the marker. -/
theorem exists_entry (h : Numbered names n slots bound) :
    ∀ {c : C} {k : Nat}, (c, k) ∈ slots →
      ∃ i path value, k = n + i + 1 ∧ bound[i]? = some (path, value) ∧ names c path := by
  induction h with
  | nil => intro c k hk; cases hk
  | @cons n c path value slots bound hname _ ih =>
    intro c' k hk
    rcases List.mem_cons.1 hk with heq | hk
    · cases heq
      exact ⟨0, path, value, rfl, rfl, hname⟩
    · obtain ⟨i, path', value', hi, hentry, hname'⟩ := ih hk
      exact ⟨i + 1, path', value', by omega, hentry, hname'⟩

end Numbered

/-! ## Steps that issue markers -/

/-- The step from `p` to `p'` binds values, and these are its markers. -/
def Issued (names : C → String → Prop) (p p' : Progress σ) (slots : List (C × Nat)) : Prop :=
  ∃ bound, p'.values = p.values ++ bound ∧ Numbered names p.values.length slots bound

namespace Issued

variable {names : C → String → Prop} {p p' p'' : Progress σ} {slots slots' : List (C × Nat)}

/-- A step that binds nothing issues no marker. -/
theorem of_values_eq (h : p'.values = p.values) : Issued names p p' [] :=
  ⟨[], by rw [h, List.append_nil], .nil⟩

theorem trans (h : Issued names p p' slots) (h' : Issued names p' p'' slots') :
    Issued names p p'' (slots ++ slots') := by
  obtain ⟨bound, hvalues, hnumbered⟩ := h
  obtain ⟨bound', hvalues', hnumbered'⟩ := h'
  rw [hvalues, List.length_append] at hnumbered'
  refine ⟨bound ++ bound', ?_, hnumbered.append hnumbered'⟩
  rw [hvalues', hvalues, List.append_assoc]

/-- A step after one that binds nothing. -/
theorem after (h : p'.values = p.values) (h' : Issued names p' p'' slots) :
    Issued names p p'' slots := by
  have hwhole := (of_values_eq h).trans h'
  rwa [List.nil_append] at hwhole

/-- The same step for each element of a list. -/
theorem each {α β : Type} {f : α → Build σ β} {slotsOf : β → List (C × Nat)} {xs : List α}
    {ys : List β} (h : Build.Each f xs p ys p')
    (hstep : ∀ x ∈ xs, ∀ (p p' : Progress σ) (y : β), f x p = .ok (y, p') →
      Issued names p p' (slotsOf y)) :
    Issued names p p' (ys.flatMap slotsOf) :=
  h.collect (R := fun p (_ : List Unit) slots p' => Issued names p p' slots) (g := fun _ => [])
    (fun _ => of_values_eq rfl) trans hstep

end Issued

theorem Build.issued_bind {names : C → String → Prop} {p p' : Progress σ} {c : C}
    {path : String} {value : Value} {k : Nat} (hname : names c path)
    (h : (Build.bind path value : Build σ Nat) p = .ok (k, p')) :
    Issued names p p' [(c, k)] := by
  obtain ⟨rfl, rfl⟩ := Build.bind_value_ok_iff.1 h
  exact ⟨[(path, value)], rfl, .cons hname .nil⟩

/-! ## The compiler of predicates -/

/-- What a target does in its own way issues the markers of what it gives,
provided that it is asked about a column and the path that names it. -/
structure Dialog.Issues (d : Dialog σ C) (names : C → String → Prop) : Prop where
  resolve : ∀ {path : String} {p p' : Progress σ} {c : C} {property : Property},
    d.resolve path p = .ok ((c, property), p') → names c path ∧ p'.values = p.values
  test : ∀ {op : TextOperator} {c : C} {path text : String} {p p' : Progress σ}
    {q : Predicate C}, names c path → d.test op c path text p = .ok (q, p') →
    Issued names p p' q.slots
  unlike : ∀ q : Predicate C, (d.unlike q).slots = q.slots
  outside : ∀ (c : C) (markers : List Nat),
    (d.outside c markers).slots = markers.map fun marker => (c, marker)
  blankness : ∀ {isBlank : Bool} {c : C} {path : String} {p p' : Progress σ}
    {q : Predicate C}, names c path → d.blankness isBlank c path p = .ok (q, p') →
    Issued names p p' q.slots

namespace Dialog

variable {d : Dialog σ C} {names : C → String → Prop} {p p' : Progress σ}

/-- A literal that is bound issues its marker. -/
theorem issued_bindLiteral {c : C} {path : String} {property : Property} {value : Term}
    {k : Nat} (hname : names c path)
    (h : bindLiteral path property value p = .ok (k, p')) : Issued names p p' [(c, k)] := by
  obtain ⟨bound, _, hbind⟩ := Build.lookup_bind_ok_iff.1 h
  exact Build.issued_bind hname hbind

theorem AtomRun.issued (hd : d.Issues names) {t : Term} {op : Operator} {q : Predicate C}
    (h : d.AtomRun t p op q p') : Issued names p p' q.slots := by
  cases h with
  | isNull ha _ _ => exact .of_values_eq (hd.resolve ha.resolves).2
  | isNotNull ha _ _ => exact .of_values_eq (hd.resolve ha.resolves).2
  | like ha _ _ _ htest =>
    obtain ⟨hname, hvalues⟩ := hd.resolve ha.resolves
    exact .after hvalues (hd.test hname htest)
  | unlike ha _ _ _ htest =>
    obtain ⟨hname, hvalues⟩ := hd.resolve ha.resolves
    rw [hd.unlike]
    exact .after hvalues (hd.test hname htest)
  | compared op ha _ _ _ hbind =>
    obtain ⟨hname, hvalues⟩ := hd.resolve ha.resolves
    rw [Predicate.slots]
    exact .after hvalues (issued_bindLiteral hname hbind)
  | @among path c property p₁ _ values markers negated ha _ hbind =>
    obtain ⟨hname, hvalues⟩ := hd.resolve ha.resolves
    have hmarkers : Issued names p₁ p' (markers.map fun marker => (c, marker)) := by
      rw [List.map_eq_flatMap]
      exact .each hbind fun value _ p p' k hk => issued_bindLiteral hname hk
    have hslots : (if negated then d.outside c markers else
        .membership false c markers).slots = markers.map fun marker => (c, marker) := by
      split
      · exact hd.outside c markers
      · rw [Predicate.slots]
    rw [hslots]
    exact .after hvalues hmarkers
  | nullity isNull _ ha => exact .of_values_eq (hd.resolve ha.resolves).2
  | blankness isBlank _ ha hblank =>
    obtain ⟨hname, hvalues⟩ := hd.resolve ha.resolves
    exact .after hvalues (hd.blankness hname hblank)
  | @text path c property p₁ _ values parts op _ ha _ htests =>
    obtain ⟨hname, hvalues⟩ := hd.resolve ha.resolves
    have hparts : Issued names p₁ p' (parts.flatMap Predicate.slots) := by
      refine .each htests fun value _ p p' q hq => ?_
      obtain ⟨text, _, htest⟩ := Build.lookup_bind_ok_iff.1 hq
      exact hd.test hname htest
    have hslots : (if op = .lacks then Predicate.allOf parts else .anyOf parts).slots =
        parts.flatMap Predicate.slots := by
      split
      · exact Predicate.slots_allOf parts
      · exact Predicate.slots_anyOf parts
    rw [hslots]
    exact .after hvalues hparts

/-- The compiler of predicates issues the markers of the predicate. -/
theorem issued_predicate (hd : d.Issues names) (t : Term) :
    ∀ {p p' : Progress σ} {q : Predicate C}, d.predicate t p = .ok (q, p') →
      Issued names p p' q.slots := by
  induction t using Term.induction with
  | node token quote children ih =>
    intro p p' q h
    cases run_of_predicate h with
    | all _ _ hparts =>
      rw [Predicate.slots_allOf]
      exact .each hparts fun t ht _ _ _ h => ih t ht h
    | any _ _ hparts =>
      rw [Predicate.slots_anyOf]
      exact .each hparts fun t ht _ _ _ h => ih t ht h
    | negation _ hpart =>
      rw [Predicate.slots]
      exact ih _ (by simp) hpart
    | conditional _ _ hc ht hf =>
      rw [Predicate.slots]
      exact (ih _ (by simp) hc).trans ((ih _ (by simp) ht).trans (ih _ (by simp) hf))
    | connectives _ _ hc ht hagain hf =>
      have hwhole := ((ih _ (by simp) hc).trans (ih _ (by simp) ht)).trans
        ((ih _ (by simp) hagain).trans (ih _ (by simp) hf))
      simpa [Predicate.slots, Predicate.slotsAll] using hwhole
    | atom _ hatom => exact hatom.issued hd

theorem issued_predicates (hd : d.Issues names) {ts : List Term} {qs : List (Predicate C)}
    (h : d.predicates ts p = .ok (qs, p')) : Issued names p p' (qs.flatMap Predicate.slots) :=
  .each (predicates_ok_iff.1 h) fun t _ _ _ _ ht => issued_predicate hd t ht

/-! ## The compiler of computed columns -/

/-- The terms that stand for whole rows hold no markers. -/
def Unmarked (star : Bool → Term → Option (Expression C)) : Prop :=
  ∀ {inside : Bool} {t : Term} {e : Expression C}, star inside t = some e → e.slots = []

/-- The compiler of expressions issues the markers of the expression. -/
theorem issued_expression (hd : d.Issues names) {star : Bool → Term → Option (Expression C)}
    (hstar : Unmarked star) (t : Term) :
    ∀ {inside : Bool} {p p' : Progress σ} {e : Expression C},
      d.expression star inside t p = .ok (e, p') → Issued names p p' e.slots := by
  induction t using Term.induction with
  | node token quote children ih =>
    intro inside p p' e h
    have hbranch : ∀ t ∈ children, ∀ {p p' : Progress σ} {e : Expression C},
        branch t (d.expression star false t) p = .ok (e, p') → Issued names p p' e.slots := by
      intro t ht p p' e h
      rcases branch_ok h with ⟨_, rfl, rfl⟩ | ⟨_, h⟩
      · exact .of_values_eq rfl
      · exact ih t ht h
    cases run_of_expression h with
    | whole hwhole =>
      rw [hstar hwhole]
      exact .of_values_eq rfl
    | column _ hresolve => exact .of_values_eq (hd.resolve hresolve).2
    | aggregate _ _ hargument =>
      rw [Expression.slots]
      exact ih _ (List.mem_singleton_self _) hargument
    | choice _ _ _ hc ht hf =>
      rw [Expression.slots]
      exact (issued_predicate hd _ hc).trans
        ((hbranch _ (by simp) ht).trans (hbranch _ (by simp) hf))

theorem issued_computed (hd : d.Issues names) {star : Bool → Term → Option (Expression C)}
    (hstar : Unmarked star) {cs : List Computed} {es : List (Computed × Expression C)}
    (h : d.computed star cs p = .ok (es, p')) :
    Issued names p p' (es.flatMap fun e => e.2.slots) := by
  rw [computed_eq_mapM, Build.mapM_ok_iff] at h
  refine .each h fun c _ p p' e he => ?_
  obtain ⟨e', hexpression, rfl⟩ := Build.bind_pure_ok_iff.1 he
  exact issued_expression hd hstar c.expression hexpression

/-! ## Columns by name -/

/-- A step that binds nothing, for each element of a list. -/
theorem values_eq_of_each {α β : Type} {f : α → Build σ β} {xs : List α} {ys : List β}
    (h : Build.Each f xs p ys p')
    (hstep : ∀ (x : α) (p p' : Progress σ) (y : β), f x p = .ok (y, p') →
      p'.values = p.values) : p'.values = p.values :=
  h.chain (R := fun p p' => p'.values = p.values) (fun _ => rfl) (fun h h' => h'.trans h) hstep

theorem values_eq_of_columns (hd : d.Issues names) {ts : List Term}
    {cs : List (String × C × Property)} (h : d.columns ts p = .ok (cs, p')) :
    p'.values = p.values := by
  rw [columns_eq_mapM, Build.mapM_ok_iff] at h
  refine values_eq_of_each h fun t p p' c hc => ?_
  obtain ⟨path, _, hc⟩ := Build.lookup_bind_ok_iff.1 hc
  obtain ⟨column, hresolve, _⟩ := Build.bind_pure_ok_iff.1 hc
  exact (hd.resolve hresolve).2

theorem values_eq_of_groups (hd : d.Issues names) {ts : List Term} {cs : List C}
    (h : d.groups ts p = .ok (cs, p')) : p'.values = p.values := by
  rw [groups_eq_mapM, Build.mapM_ok_iff] at h
  refine values_eq_of_each h fun t p p' c hc => ?_
  obtain ⟨column, hresolve, _⟩ := Build.bind_pure_ok_iff.1 hc
  exact (hd.resolve hresolve).2

end Dialog
end ResourceQuery
