import ResourceQuery.Proofs.Statement.Expression

set_option autoImplicit false

/-!
# Statements: the truth of filters

A filter means something on both sides of the compiler: as terms, with `and`,
`or`, `not` and `if` as usual, and as predicates, with the bound values in the
places of markers.  Both meanings start from the truth of elementary conditions
on the columns of a target.  They agree for every target that says with its own
predicates what it is asked to say.

A column is known by its path only while the compiler is at work, and a marker
stands for a value that later steps keep in its place.  So what a step settles
is stated of all states behind it.
-/

namespace ResourceQuery

variable {σ C : Type}

/-! ## Elementary conditions -/

/-- The truth of elementary conditions on columns. -/
structure Meaning (C : Type) where
  /-- The column compares so with the value. -/
  compares : Comparison → C → Value → Bool
  /-- The column has one of the values. -/
  among : C → List Value → Bool
  /-- The column has no value. -/
  null : C → Bool
  /-- The column has no value or an empty one.  The empty value is given where it is bound. -/
  blank : C → Option Value → Bool
  /-- The column passes a test against the text. -/
  passes : TextTest → C → Value → Bool

/-- A comparison; `ne` denies `eq`. -/
def Meaning.compare (m : Meaning C) (op : Comparison) (c : C) (v : Value) : Bool :=
  if op = .ne then !m.compares .eq c v else m.compares op c v

/-- The value that a marker stands for. -/
def Bindings.at (values : Bindings) (k : Nat) : Value :=
  ((values[k - 1]?).map Prod.snd).getD .null

/-! ## The truth of predicates -/

namespace Predicate

mutual

/-- The truth of a predicate. -/
def truth (m : Meaning C) (values : Bindings) : Predicate C → Bool
  | all parts => (truths m values parts).all id
  | any parts => (truths m values parts).any id
  | negation part => !truth m values part
  | choice c t f => if truth m values c then truth m values t else truth m values f
  | comparison op column marker => m.compare op column (values.at marker)
  | membership negated column markers => m.among column (markers.map values.at) != negated
  | nullity isNull column => m.null column == isNull
  | blankness isBlank column marker => m.blank column (marker.map values.at) == isBlank
  | text test negated column marker => m.passes test column (values.at marker) != negated

/-- The truth of each predicate. -/
def truths (m : Meaning C) (values : Bindings) : List (Predicate C) → List Bool
  | [] => []
  | part :: parts => truth m values part :: truths m values parts

end

variable {m : Meaning C} {values : Bindings}

theorem truths_eq_map (parts : List (Predicate C)) :
    truths m values parts = parts.map (truth m values) := by
  induction parts with
  | nil => rw [truths, List.map_nil]
  | cons part parts ih => rw [truths, ih, List.map_cons]

theorem truth_all (parts : List (Predicate C)) :
    (all parts).truth m values = (parts.map (truth m values)).all id := by
  rw [truth, truths_eq_map]

theorem truth_any (parts : List (Predicate C)) :
    (any parts).truth m values = (parts.map (truth m values)).any id := by
  rw [truth, truths_eq_map]

theorem truth_negation (part : Predicate C) :
    (negation part).truth m values = !part.truth m values := by
  rw [truth]

theorem truth_allOf (parts : List (Predicate C)) :
    (allOf parts).truth m values = (parts.map (truth m values)).all id := by
  unfold allOf
  split
  · rw [List.map_singleton, List.all_cons, List.all_nil, Bool.and_true, id]
  · exact truth_all parts

theorem truth_anyOf (parts : List (Predicate C)) :
    (anyOf parts).truth m values = (parts.map (truth m values)).any id := by
  unfold anyOf
  split
  · rw [List.map_singleton, List.any_cons, List.any_nil, Bool.or_false, id]
  · exact truth_any parts

end Predicate

/-! ## The truth of filter terms -/

/-- What filter terms say of the columns of a target. -/
structure Sense (C : Type) extends Meaning C where
  /-- The column passes the test against one text. -/
  tests : TextOperator → C → String → Bool
  /-- The column is empty. -/
  empty : C → Bool

/-- The value of a literal. -/
def Property.read (p : Property) (v : Term) : Value := ((Value.cast p v).toOption).getD .null

namespace Sense

variable (s : Sense C)

/-- The column has the value.  `null` is none, and a pattern is one to match. -/
def equals (c : C) (p : Property) (v : Term) : Bool :=
  if v.isNull then s.null c
  else if v.isPattern then s.tests .like c v.token
  else s.compares .eq c (p.read v)

/-- The column compares so with the value. -/
def relates (c : C) (p : Property) (v : Term) : Comparison → Bool
  | .eq => s.equals c p v
  | .ne => !s.equals c p v
  | op => s.compares op c (p.read v)

/-- The truth of a term about a column, from its other arguments. -/
def atom (c : C) (p : Property) (values : List Term) : Operator → Bool
  | .comparison op => values.any fun v => s.relates c p v op
  | .membership negated => s.among c (values.map p.read) != negated
  | .nullity isNull => s.null c == isNull
  | .blankness isBlank => s.empty c == isBlank
  | .text .lacks => values.all fun v => !s.tests .contains c v.token
  | .text op => values.any fun v => s.tests op c v.token
  | .all | .any | .negation | .choice => false

/-- The truth of a term about a column.  The path is looked up for its column
and the property that literals are read by. -/
def about (look : String → Option (C × Property)) (t : Term) (op : Operator) : Bool :=
  match t.column.toOption.bind look with
  | some (c, p) => s.atom c p t.children.tail op
  | none => false

/-- The truth of a term with the operator, from that of its arguments. -/
def apply (look : String → Option (C × Property)) (t : Term) (values : List Bool) :
    Operator → Bool
  | .all => values.all id
  | .any => values.any id
  | .negation =>
    match values with
    | [value] => !value
    | _ => false
  | .choice =>
    match values with
    | [condition, whenTrue, whenFalse] => condition && whenTrue || !condition && whenFalse
    | _ => false
  | op => s.about look t op

/-- The truth of a filter term. -/
def holds (look : String → Option (C × Property)) : Term → Bool :=
  Term.fold fun t values => (Operator.ofWord? t.token).any (s.apply look t values)

variable {s} {look : String → Option (C × Property)}

theorem holds_eq {t : Term} {op : Operator} (hop : Operator.ofWord? t.token = some op) :
    s.holds look t = s.apply look t (t.children.map (s.holds look)) op := by
  rw [holds, Term.fold_eq, hop]
  rfl

theorem holds_node {token : String} {quote : Option Quote} {children : List Term} {op : Operator}
    (hop : Operator.ofWord? token = some op) :
    s.holds look (.node token quote children) =
      s.apply look (.node token quote children) (children.map (s.holds look)) op :=
  holds_eq hop

theorem about_eq {t : Term} {path : String} {c : C} {p : Property} (hpath : t.column = .ok path)
    (hlook : look path = some (c, p)) (op : Operator) :
    s.about look t op = s.atom c p t.children.tail op := by
  have hfound : t.column.toOption.bind look = some (c, p) := by
    rw [hpath]
    exact hlook
  rw [about, hfound]

end Sense

/-! ## What a step settles -/

/-- The state comes behind another one: it has its values, and it knows its names. -/
structure Progress.Later (grows : σ → σ → Prop) (p f : Progress σ) : Prop where
  values : p.values <+: f.values
  scope : grows p.scope f.scope

/-- The step from `p` to `p'` settles that all states behind it have the property. -/
structure Settles (grows : σ → σ → Prop) (p p' : Progress σ) (P : Progress σ → Prop) : Prop where
  later : p.Later grows p'
  always : ∀ f : Progress σ, p'.Later grows f → P f

/-- Names that are known stay known. -/
structure Growth (grows : σ → σ → Prop) : Prop where
  refl : ∀ x, grows x x
  trans : ∀ {x y z}, grows x y → grows y z → grows x z

section Settles

variable {grows : σ → σ → Prop} {p p' p'' : Progress σ} {P Q : Progress σ → Prop}

theorem Growth.later_refl (hg : Growth grows) (p : Progress σ) : p.Later grows p :=
  ⟨List.prefix_rfl, hg.refl p.scope⟩

theorem Growth.later_trans (hg : Growth grows) (h : p.Later grows p') (h' : p'.Later grows p'') :
    p.Later grows p'' :=
  ⟨h.values.trans h'.values, hg.trans h.scope h'.scope⟩

theorem Settles.mono (h : Settles grows p p' P) (hPQ : ∀ f, P f → Q f) : Settles grows p p' Q :=
  ⟨h.later, fun f hf => hPQ f (h.always f hf)⟩

theorem Settles.trans (hg : Growth grows) (h : Settles grows p p' P)
    (h' : Settles grows p' p'' Q) : Settles grows p p'' fun f => P f ∧ Q f where
  later := hg.later_trans h.later h'.later
  always f hf := ⟨h.always f (hg.later_trans h'.later hf), h'.always f hf⟩

/-- The same step for each element of a list: what is found is what is given. -/
theorem Settles.each {α β γ : Type} (hg : Growth grows) {f : α → Build σ β}
    {found : Progress σ → β → γ} {given : Progress σ → α → γ} {xs : List α} {ys : List β}
    (h : Build.Each f xs p ys p')
    (hstep : ∀ x ∈ xs, ∀ (p p' : Progress σ) (y : β), f x p = .ok (y, p') →
      Settles grows p p' fun g => found g y = given g x) :
    Settles grows p p' fun g => ys.map (found g) = xs.map (given g) := by
  induction h with
  | nil => exact ⟨hg.later_refl _, fun _ _ => rfl⟩
  | @cons x xs p p' p'' y ys hx _ ih =>
    have hhead := hstep x List.mem_cons_self p p' y hx
    have htail := ih fun x' hx' => hstep x' (List.mem_cons_of_mem x hx')
    refine (hhead.trans hg htail).mono ?_
    rintro g ⟨hy, hys⟩
    rw [List.map_cons, List.map_cons, hy, hys]

/-- States that come one behind the other, for each element of a list. -/
theorem Growth.later_each {α β : Type} (hg : Growth grows) {f : α → Build σ β} {xs : List α}
    {ys : List β} (h : Build.Each f xs p ys p')
    (hstep : ∀ (x : α) (p p' : Progress σ) (y : β), f x p = .ok (y, p') → p.Later grows p') :
    p.Later grows p' :=
  h.chain hg.later_refl hg.later_trans hstep

/-- The marker of a bound value stands for it ever after. -/
theorem Bindings.at_of_prefix {values values' : Bindings} {column : String} {value : Value}
    (h : values ++ [(column, value)] <+: values') : values'.at (values.length + 1) = value := by
  obtain ⟨rest, rfl⟩ := h
  rw [Bindings.at, Nat.add_sub_cancel, List.append_assoc, List.getElem?_append_right (Nat.le_refl _),
    Nat.sub_self]
  rfl

/-- A value that is bound is found at its marker in all later states. -/
theorem settles_bind (hg : Growth grows) {column : String} {value : Value} {k : Nat}
    (h : (Build.bind column value : Build σ Nat) p = .ok (k, p')) :
    Settles grows p p' fun f => f.values.at k = value := by
  obtain ⟨rfl, rfl⟩ := Build.bind_value_ok_iff.1 h
  exact ⟨⟨List.prefix_append _ _, hg.refl _⟩, fun f hf => Bindings.at_of_prefix hf.values⟩

end Settles

/-! ## The compiler keeps the truth -/

/-- The column of a path and its property, as they are known in a state. -/
def Dialog.look (d : Dialog σ C) (f : Progress σ) (path : String) : Option (C × Property) :=
  (d.resolve path f).toOption.map Prod.fst

/-- What a target does in its own way says what it is asked to say. -/
structure Dialog.Truthful (d : Dialog σ C) (grows : σ → σ → Prop) (s : Sense C) : Prop where
  growth : Growth grows
  resolve : ∀ {path : String} {p p' : Progress σ} {found : C × Property},
    d.resolve path p = .ok (found, p') → Settles grows p p' fun f => d.look f path = some found
  test : ∀ {op : TextOperator} {c : C} {path text : String} {p p' : Progress σ}
    {q : Predicate C}, d.refused op = none → d.test op c path text p = .ok (q, p') →
    Settles grows p p' fun f => q.truth s.toMeaning f.values =
      if op = .lacks then !s.tests .contains c text else s.tests op c text
  like : d.refused .like = none
  unlike : ∀ (q : Predicate C) (values : Bindings),
    (d.unlike q).truth s.toMeaning values = !q.truth s.toMeaning values
  outside : ∀ (c : C) (markers : List Nat) (values : Bindings),
    (d.outside c markers).truth s.toMeaning values = !s.among c (markers.map values.at)
  blankness : ∀ {isBlank : Bool} {c : C} {path : String} {p p' : Progress σ}
    {q : Predicate C}, d.blankness isBlank c path p = .ok (q, p') →
    Settles grows p p' fun f => q.truth s.toMeaning f.values = (s.empty c == isBlank)

theorem Term.tail_of_value {t v : Term} (h : t.value = .ok v) : t.children.tail = [v] := by
  unfold value at h
  split at h
  · next hchildren => rw [hchildren, ← Except.ok.inj h]; rfl
  · cases h

theorem Term.tail_of_values {t : Term} {vs : List Term} (h : t.values = .ok vs) :
    t.children.tail = vs := by
  unfold values at h
  split at h
  · cases h
  · exact Except.ok.inj h

theorem Term.ne_nil_of_values {t : Term} {vs : List Term} (h : t.values = .ok vs) : vs ≠ [] := by
  unfold values at h
  split at h
  · cases h
  · next hne => rw [← Except.ok.inj h]; exact hne

theorem Term.token_of_literal {t : Term} {column text : String}
    (h : t.literal column = .ok text) : t.token = text := by
  unfold literal at h
  split at h
  · exact Except.ok.inj h
  · cases h

namespace Dialog

variable {d : Dialog σ C} {grows : σ → σ → Prop} {s : Sense C} {p p' : Progress σ}

theorem settles_bindLiteral (hg : Growth grows) {path : String} {property : Property}
    {value : Term} {k : Nat} (h : bindLiteral path property value p = .ok (k, p')) :
    Settles grows p p' fun f => f.values.at k = property.read value := by
  obtain ⟨bound, hcast, hbind⟩ := Build.lookup_bind_ok_iff.1 h
  refine (settles_bind hg hbind).mono fun f hf => ?_
  rw [hf, Property.read, hcast]
  rfl

/-- A term about a column is compiled to a predicate of the same truth. -/
theorem AtomRun.settles (hd : d.Truthful grows s) {t : Term} {op : Operator} {q : Predicate C}
    (h : d.AtomRun t p op q p') :
    Settles grows p p' fun f =>
      q.truth s.toMeaning f.values = s.about (d.look f) t op := by
  cases h with
  | isNull ha hv hnull =>
    refine (hd.resolve ha.resolves).mono fun f hlook => ?_
    rw [Sense.about_eq ha.path_eq hlook, Term.tail_of_value hv]
    simp [Predicate.truth, Sense.atom, Sense.relates, Sense.equals, hnull]
  | isNotNull ha hv hnull =>
    refine (hd.resolve ha.resolves).mono fun f hlook => ?_
    rw [Sense.about_eq ha.path_eq hlook, Term.tail_of_value hv]
    simp [Predicate.truth, Sense.atom, Sense.relates, Sense.equals, hnull]
  | like ha hv hnull hpattern htest =>
    refine ((hd.resolve ha.resolves).trans hd.growth (hd.test hd.like htest)).mono ?_
    rintro f ⟨hlook, htruth⟩
    rw [Sense.about_eq ha.path_eq hlook, Term.tail_of_value hv, htruth]
    simp [Sense.atom, Sense.relates, Sense.equals, hnull, hpattern]
  | unlike ha hv hnull hpattern htest =>
    refine ((hd.resolve ha.resolves).trans hd.growth (hd.test hd.like htest)).mono ?_
    rintro f ⟨hlook, htruth⟩
    rw [Sense.about_eq ha.path_eq hlook, Term.tail_of_value hv, hd.unlike, htruth]
    simp [Sense.atom, Sense.relates, Sense.equals, hnull, hpattern]
  | compared op ha hv hnull hpattern hbind =>
    refine ((hd.resolve ha.resolves).trans hd.growth (settles_bindLiteral hd.growth hbind)).mono ?_
    rintro f ⟨hlook, hvalue⟩
    rw [Sense.about_eq ha.path_eq hlook, Term.tail_of_value hv, Predicate.truth, hvalue]
    -- only `eq` and `ne` ask whether the value is a pattern, and then it is none
    cases op <;> simp_all [Sense.atom, Sense.relates, Sense.equals, Meaning.compare]
  | @among path c property p₁ _ values markers negated ha hvs hbind =>
    have hmarkers : Settles grows p₁ p' fun f =>
        markers.map f.values.at = values.map property.read :=
      .each hd.growth hbind fun value _ p p' k hk => settles_bindLiteral hd.growth hk
    refine ((hd.resolve ha.resolves).trans hd.growth hmarkers).mono ?_
    rintro f ⟨hlook, hvalues⟩
    rw [Sense.about_eq ha.path_eq hlook, Term.tail_of_values hvs, Sense.atom, ← hvalues]
    cases negated with
    | true => simp [hd.outside]
    | false => simp [Predicate.truth]
  | nullity isNull _ ha =>
    refine (hd.resolve ha.resolves).mono fun f hlook => ?_
    rw [Sense.about_eq ha.path_eq hlook, Predicate.truth, Sense.atom]
  | blankness isBlank _ ha hblank =>
    refine ((hd.resolve ha.resolves).trans hd.growth (hd.blankness hblank)).mono ?_
    rintro f ⟨hlook, htruth⟩
    rw [Sense.about_eq ha.path_eq hlook, htruth, Sense.atom]
  | @text path c property p₁ _ values parts op hrefused ha hvs htests =>
    have hparts : Settles grows p₁ p' fun f =>
        parts.map (Predicate.truth s.toMeaning f.values) = values.map fun v =>
          if op = .lacks then !s.tests .contains c v.token else s.tests op c v.token := by
      refine .each hd.growth htests fun value _ p p' q hq => ?_
      obtain ⟨text, hliteral, htest⟩ := Build.lookup_bind_ok_iff.1 hq
      rw [Term.token_of_literal hliteral]
      exact hd.test hrefused htest
    refine ((hd.resolve ha.resolves).trans hd.growth hparts).mono ?_
    rintro f ⟨hlook, htruths⟩
    rw [Sense.about_eq ha.path_eq hlook, Term.tail_of_values hvs]
    cases op with
    | lacks =>
      rw [if_pos rfl, Predicate.truth_allOf, htruths, List.all_map]
      rfl
    | startsWith | endsWith | contains | like =>
      rw [if_neg (by decide), Predicate.truth_anyOf, htruths, List.any_map]
      rfl

/-- The predicate of a term is true when the term is. -/
theorem settles_predicate (hd : d.Truthful grows s) (t : Term) :
    ∀ {p p' : Progress σ} {q : Predicate C}, d.predicate t p = .ok (q, p') →
      Settles grows p p' fun f => q.truth s.toMeaning f.values = s.holds (d.look f) t := by
  induction t using Term.induction with
  | node token quote children ih =>
    intro p p' q h
    have hg := hd.growth
    cases run_of_predicate h with
    | all hop _ hparts =>
      refine (Settles.each hg hparts fun t ht _ _ _ h => ih t ht h).mono fun f hf => ?_
      rw [Predicate.truth_allOf, hf, Sense.holds_node hop]
      rfl
    | any hop _ hparts =>
      refine (Settles.each hg hparts fun t ht _ _ _ h => ih t ht h).mono fun f hf => ?_
      rw [Predicate.truth_anyOf, hf, Sense.holds_node hop]
      rfl
    | negation hop hpart =>
      refine (ih _ (by simp) hpart).mono fun f hf => ?_
      rw [Predicate.truth, hf, Sense.holds_node hop]
      rfl
    | conditional hop _ hc ht hf =>
      refine ((ih _ (by simp) hc).trans hg ((ih _ (by simp) ht).trans hg
        (ih _ (by simp) hf))).mono ?_
      rintro f ⟨hc, ht, hf⟩
      rw [Predicate.truth, hc, ht, hf, Sense.holds_node hop]
      simp only [List.map_cons, List.map_nil, Sense.apply]
      cases s.holds (d.look f) _ <;> simp
    | connectives hop _ hc ht hagain hf =>
      refine ((ih _ (by simp) hc).trans hg ((ih _ (by simp) ht).trans hg
        ((ih _ (by simp) hagain).trans hg (ih _ (by simp) hf)))).mono ?_
      rintro f ⟨hc, ht, hagain, hf⟩
      rw [Sense.holds_node hop]
      simp [Predicate.truth, Predicate.truths, Sense.apply, hc, ht, hagain, hf]
    | @atom _ op _ _ _ hop hatom =>
      refine (hatom.settles hd).mono fun f hf => ?_
      rw [hf, Sense.holds_eq hop]
      cases hatom <;> rfl

theorem later_of_groups (hd : d.Truthful grows s) {ts : List Term} {cs : List C}
    (h : d.groups ts p = .ok (cs, p')) : p.Later grows p' := by
  rw [groups_eq_mapM, Build.mapM_ok_iff] at h
  refine hd.growth.later_each h fun t p p' c hc => ?_
  obtain ⟨column, hresolve, _⟩ := Build.bind_pure_ok_iff.1 hc
  exact (hd.resolve hresolve).later

/-- The predicates of a filter are all true when its terms are. -/
theorem settles_predicates (hd : d.Truthful grows s) {ts : List Term} {qs : List (Predicate C)}
    (h : d.predicates ts p = .ok (qs, p')) :
    Settles grows p p' fun f =>
      qs.map (Predicate.truth s.toMeaning f.values) = ts.map (s.holds (d.look f)) :=
  .each hd.growth (predicates_ok_iff.1 h) fun t _ _ _ _ ht => settles_predicate hd t ht

end Dialog
end ResourceQuery
