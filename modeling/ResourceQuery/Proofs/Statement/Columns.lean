import ResourceQuery.Proofs.Statement.Pieces
import ResourceQuery.Proofs.Statement.Truth

set_option autoImplicit false

/-!
# Statements: the columns that paths lead to

A predicate has the columns that the paths of its term lead to, all of them and
no others.  What a target knows of names changes only where a path is resolved,
so a whole run is a sequence of such steps.

`Employs` is stated of steps and closed under sequences, like every property of
runs here.  A target has to add only what it does in its own way, which is
`Concerns`.
-/

namespace ResourceQuery

variable {σ C : Type}

/-! ## The columns of predicates -/

mutual

/-- The columns of a predicate from left to right. -/
def Predicate.columns : Predicate C → List C
  | all parts => columnsAll parts
  | any parts => columnsAll parts
  | negation part => columns part
  | choice condition whenTrue whenFalse =>
    columns condition ++ (columns whenTrue ++ columns whenFalse)
  | comparison _ column _ => [column]
  | membership _ column _ => [column]
  | nullity _ column => [column]
  | blankness _ column _ => [column]
  | text _ _ column _ => [column]

/-- The columns of predicates from left to right. -/
def Predicate.columnsAll : List (Predicate C) → List C
  | [] => []
  | part :: parts => columns part ++ columnsAll parts

end

theorem Predicate.columnsAll_eq_flatMap (parts : List (Predicate C)) :
    columnsAll parts = parts.flatMap columns := by
  induction parts with
  | nil => rw [columnsAll, List.flatMap_nil]
  | cons part parts ih => rw [columnsAll, ih, List.flatMap_cons]

theorem Predicate.columns_all (parts : List (Predicate C)) :
    (all parts).columns = parts.flatMap columns := by
  rw [columns, columnsAll_eq_flatMap]

theorem Predicate.columns_any (parts : List (Predicate C)) :
    (any parts).columns = parts.flatMap columns := by
  rw [columns, columnsAll_eq_flatMap]

theorem Predicate.columns_allOf (parts : List (Predicate C)) :
    (allOf parts).columns = parts.flatMap columns := by
  unfold allOf
  split
  · rw [List.flatMap_singleton]
  · exact columns_all parts

theorem Predicate.columns_anyOf (parts : List (Predicate C)) :
    (anyOf parts).columns = parts.flatMap columns := by
  unfold anyOf
  split
  · rw [List.flatMap_singleton]
  · exact columns_any parts

theorem Predicate.Elementary.columns_eq {c : C} {k : Nat} {q : Predicate C}
    (h : q.Elementary c k) : q.columns = [c] := by
  cases h with
  | comparison op => rw [columns]
  | text test negated => rw [columns]

/-! ## The paths of terms -/

/-- The operator takes terms for its arguments. -/
def Operator.isConnective (op : Operator) : Bool := [.all, .any, .negation, .choice].contains op

/-- The paths of the columns that a filter term is about. -/
def Term.paths : Term → List String :=
  Term.fold fun t inner =>
    if (Operator.ofWord? t.token).any Operator.isConnective then inner.flatten
    else t.column.toOption.toList

theorem Term.paths_connective {token : String} {quote : Option Quote} {children : List Term}
    {op : Operator} (hop : Operator.ofWord? token = some op) (h : op.isConnective = true) :
    (node token quote children).paths = children.flatMap paths := by
  rw [paths, fold_eq, token_node, hop, Option.any_some, if_pos h, children_node, List.flatMap_def]

theorem Term.paths_atom {t : Term} {op : Operator} (hop : Operator.ofWord? t.token = some op)
    (h : op.isConnective = false) : t.paths = t.column.toOption.toList := by
  rw [paths, fold_eq, hop, Option.any_some, h]
  rfl

/-! ## Steps that resolve paths -/

/-- The paths are resolved one after the other.  In between, the known names stay as they are. -/
inductive Dialog.Resolves (d : Dialog σ C) :
    Progress σ → List (String × C) → Progress σ → Prop where
  | done {p p' : Progress σ} (h : p'.scope = p.scope) : Resolves d p [] p'
  | step {p p₁ p₂ p₃ : Progress σ} {path : String} {c : C} {property : Property}
      {uses : List (String × C)} (hsame : p₁.scope = p.scope)
      (hresolve : d.resolve path p₁ = .ok ((c, property), p₂)) (h : Resolves d p₂ uses p₃) :
      Resolves d p ((path, c) :: uses) p₃

/-- The step resolves these paths, and the columns are those that they lead to. -/
def Dialog.Employs (d : Dialog σ C) (p : Progress σ) (paths : List String) (columns : List C)
    (p' : Progress σ) : Prop :=
  ∃ uses, d.Resolves p uses p' ∧ (∀ path, path ∈ paths ↔ path ∈ uses.map Prod.fst) ∧
    ∀ c, c ∈ columns ↔ c ∈ uses.map Prod.snd

namespace Dialog

variable {d : Dialog σ C} {p p' p'' : Progress σ} {uses uses' : List (String × C)}
  {paths paths' : List String} {columns columns' : List C}

theorem Resolves.of_scope_eq (hscope : p'.scope = p.scope) (h : d.Resolves p' uses p'') :
    d.Resolves p uses p'' := by
  cases h with
  | done h => exact .done (h.trans hscope)
  | step hsame hresolve h => exact .step (hsame.trans hscope) hresolve h

/-- What two steps resolve is resolved by both in a row. -/
theorem Resolves.trans (h : d.Resolves p uses p') (h' : d.Resolves p' uses' p'') :
    d.Resolves p (uses ++ uses') p'' := by
  induction h with
  | done hscope => exact h'.of_scope_eq hscope
  | step hsame hresolve _ ih => exact .step hsame hresolve (ih h')

theorem Employs.nil (h : p'.scope = p.scope) : d.Employs p [] [] p' :=
  ⟨[], .done h, fun _ => .rfl, fun _ => .rfl⟩

theorem Employs.trans (h : d.Employs p paths columns p') (h' : d.Employs p' paths' columns' p'') :
    d.Employs p (paths ++ paths') (columns ++ columns') p'' := by
  obtain ⟨uses, hresolves, hpaths, hcolumns⟩ := h
  obtain ⟨uses', hresolves', hpaths', hcolumns'⟩ := h'
  refine ⟨uses ++ uses', hresolves.trans hresolves', fun path => ?_, fun c => ?_⟩
  · rw [List.mem_append, hpaths, hpaths', List.map_append, List.mem_append]
  · rw [List.mem_append, hcolumns, hcolumns', List.map_append, List.mem_append]

/-- Only which paths and columns there are counts, not their order. -/
theorem Employs.congr (h : d.Employs p paths columns p')
    (hpaths : ∀ path, path ∈ paths' ↔ path ∈ paths) (hcolumns : ∀ c, c ∈ columns' ↔ c ∈ columns) :
    d.Employs p paths' columns' p' := by
  obtain ⟨uses, hresolves, huses, huses'⟩ := h
  exact ⟨uses, hresolves, fun path => (hpaths path).trans (huses path),
    fun c => (hcolumns c).trans (huses' c)⟩

/-- The same step for each element of a list. -/
theorem Employs.each {α β : Type} {f : α → Build σ β} {pathsOf : α → List String}
    {columnsOf : β → List C} {xs : List α} {ys : List β} (h : Build.Each f xs p ys p')
    (hstep : ∀ x ∈ xs, ∀ (p p' : Progress σ) (y : β), f x p = .ok (y, p') →
      d.Employs p (pathsOf x) (columnsOf y) p') :
    d.Employs p (xs.flatMap pathsOf) (ys.flatMap columnsOf) p' :=
  h.collect (fun _ => .nil rfl) .trans hstep

/-- A term about a column, and steps that only bind values. -/
theorem Addresses.employs {t : Term} {path : String} {c : C} {property : Property}
    (h : d.Addresses t p path c property p') (hscope : p''.scope = p'.scope)
    (hcolumns : ∀ x, x ∈ columns ↔ x = c) : d.Employs p t.column.toOption.toList columns p'' := by
  refine ⟨[(path, c)], .step rfl h.resolves (.done hscope), fun x => ?_, fun x => ?_⟩
  · rw [h.path_eq]
    rfl
  · rw [hcolumns]
    exact List.mem_singleton.symm

/-! ## The compiler of predicates -/

/-- What a target does in its own way is about the column that it is asked
about, and it adds nothing to the known names. -/
structure Concerns (d : Dialog σ C) : Prop where
  test : ∀ {op : TextOperator} {c : C} {path text : String} {p p' : Progress σ}
    {q : Predicate C}, d.test op c path text p = .ok (q, p') →
    q.columns = [c] ∧ p'.scope = p.scope
  unlike : ∀ q : Predicate C, (d.unlike q).columns = q.columns
  outside : ∀ (c : C) (markers : List Nat), (d.outside c markers).columns = [c]
  blankness : ∀ {isBlank : Bool} {c : C} {path : String} {p p' : Progress σ}
    {q : Predicate C}, d.blankness isBlank c path p = .ok (q, p') →
    q.columns = [c] ∧ p'.scope = p.scope

/-- A step that adds nothing to the known names, for each element of a list. -/
theorem scope_eq_of_each {α β : Type} {f : α → Build σ β} {xs : List α} {ys : List β}
    (h : Build.Each f xs p ys p')
    (hstep : ∀ (x : α) (p p' : Progress σ) (y : β), f x p = .ok (y, p') →
      p'.scope = p.scope) : p'.scope = p.scope :=
  h.chain (R := fun p p' => p'.scope = p.scope) (fun _ => rfl) (fun h h' => h'.trans h) hstep

theorem scope_eq_of_bindLiteral {path : String} {property : Property} {value : Term} {k : Nat}
    (h : bindLiteral path property value p = .ok (k, p')) : p'.scope = p.scope := by
  obtain ⟨bound, _, hbind⟩ := Build.lookup_bind_ok_iff.1 h
  obtain ⟨_, rfl⟩ := Build.bind_value_ok_iff.1 hbind
  rfl

theorem AtomRun.employs (hd : d.Concerns) {t : Term} {op : Operator} {q : Predicate C}
    (h : d.AtomRun t p op q p') :
    op.isConnective = false ∧ d.Employs p t.column.toOption.toList q.columns p' := by
  have hsingle : ∀ {q : Predicate C} {c : C}, q.columns = [c] → ∀ x, x ∈ q.columns ↔ x = c := by
    intro q c hq x
    rw [hq]
    exact List.mem_singleton
  cases h with
  | isNull ha _ _ => exact ⟨rfl, ha.employs rfl (hsingle (by rw [Predicate.columns]))⟩
  | isNotNull ha _ _ => exact ⟨rfl, ha.employs rfl (hsingle (by rw [Predicate.columns]))⟩
  | like ha _ _ _ htest =>
    obtain ⟨hcolumns, hscope⟩ := hd.test htest
    exact ⟨rfl, ha.employs hscope (hsingle hcolumns)⟩
  | unlike ha _ _ _ htest =>
    obtain ⟨hcolumns, hscope⟩ := hd.test htest
    exact ⟨rfl, ha.employs hscope (hsingle ((hd.unlike _).trans hcolumns))⟩
  | compared op ha _ _ _ hbind =>
    exact ⟨rfl, ha.employs (scope_eq_of_bindLiteral hbind) (hsingle (by rw [Predicate.columns]))⟩
  | @among path c property p₁ _ values markers negated ha _ hbind =>
    have hcolumns : (if negated then d.outside c markers else
        .membership false c markers).columns = [c] := by
      split
      · exact hd.outside c markers
      · rw [Predicate.columns]
    have hscope := scope_eq_of_each hbind fun _ _ _ _ hk => scope_eq_of_bindLiteral hk
    exact ⟨rfl, ha.employs hscope (hsingle hcolumns)⟩
  | nullity isNull _ ha => exact ⟨rfl, ha.employs rfl (hsingle (by rw [Predicate.columns]))⟩
  | blankness isBlank _ ha hblank =>
    obtain ⟨hcolumns, hscope⟩ := hd.blankness hblank
    exact ⟨rfl, ha.employs hscope (hsingle hcolumns)⟩
  | @text path c property p₁ _ values parts op _ ha hvs htests =>
    have htest : ∀ {value : Term} {p p' : Progress σ} {q : Predicate C},
        d.testLiteral op c path value p = .ok (q, p') → q.columns = [c] ∧ p'.scope = p.scope := by
      intro value p p' q hq
      obtain ⟨text, _, htest⟩ := Build.lookup_bind_ok_iff.1 hq
      exact hd.test htest
    have hparts : ∀ x, x ∈ parts.flatMap Predicate.columns ↔ x = c := by
      have heach : ∀ part ∈ parts, part.columns = [c] :=
        forall_of_each htests fun _ _ _ _ _ hq => (htest hq).1
      intro x
      constructor
      · intro hx
        obtain ⟨part, hpart, hx⟩ := List.mem_flatMap.1 hx
        rw [heach part hpart] at hx
        exact List.mem_singleton.1 hx
      · rintro rfl
        -- a text operator has at least one text to test against
        cases htests with
        | nil => exact absurd rfl (Term.ne_nil_of_values hvs)
        | @cons _ _ _ _ _ part parts _ _ =>
          refine List.mem_flatMap.2 ⟨part, List.mem_cons_self, ?_⟩
          rw [heach part List.mem_cons_self]
          exact List.mem_singleton_self x
    have hcolumns : (if op = .lacks then Predicate.allOf parts else .anyOf parts).columns =
        parts.flatMap Predicate.columns := by
      split
      · exact Predicate.columns_allOf parts
      · exact Predicate.columns_anyOf parts
    have hscope := scope_eq_of_each htests fun _ _ _ _ hq => (htest hq).2
    rw [hcolumns]
    exact ⟨rfl, ha.employs hscope hparts⟩

/-- A predicate has the columns that the paths of its term lead to. -/
theorem employs_predicate (hd : d.Concerns) (t : Term) :
    ∀ {p p' : Progress σ} {q : Predicate C}, d.predicate t p = .ok (q, p') →
      d.Employs p t.paths q.columns p' := by
  induction t using Term.induction with
  | node token quote children ih =>
    intro p p' q h
    cases run_of_predicate h with
    | all hop _ hparts =>
      rw [Term.paths_connective hop rfl, Predicate.columns_allOf]
      exact .each hparts fun t ht _ _ _ h => ih t ht h
    | any hop _ hparts =>
      rw [Term.paths_connective hop rfl, Predicate.columns_anyOf]
      exact .each hparts fun t ht _ _ _ h => ih t ht h
    | negation hop hpart =>
      rw [Term.paths_connective hop rfl, List.flatMap_singleton, Predicate.columns]
      exact ih _ (List.mem_singleton_self _) hpart
    | conditional hop _ hc ht hf =>
      rw [Term.paths_connective hop rfl, Predicate.columns]
      simpa using (ih _ (by simp) hc).trans ((ih _ (by simp) ht).trans (ih _ (by simp) hf))
    | connectives hop _ hc ht hagain hf =>
      have hwhole := ((ih _ (by simp) hc).trans (ih _ (by simp) ht)).trans
        ((ih _ (by simp) hagain).trans (ih _ (by simp) hf))
      -- the condition is compiled twice, but it has the same paths both times
      rw [Term.paths_connective hop rfl]
      refine hwhole.congr (fun path => ?_) fun x => ?_
      · simp only [List.flatMap_cons, List.flatMap_nil, List.append_nil, List.mem_append]
        grind
      · simp [Predicate.columns, Predicate.columnsAll]
    | atom hop hatom =>
      obtain ⟨hconnective, hemploys⟩ := hatom.employs hd
      rw [Term.paths_atom hop hconnective]
      exact hemploys

theorem employs_predicates (hd : d.Concerns) {ts : List Term} {qs : List (Predicate C)}
    (h : d.predicates ts p = .ok (qs, p')) :
    d.Employs p (ts.flatMap Term.paths) (qs.flatMap Predicate.columns) p' :=
  .each (predicates_ok_iff.1 h) fun t _ _ _ _ ht => employs_predicate hd t ht

/-- Columns that are asked for by name. -/
theorem employs_columns {ts : List Term} {cs : List (String × C × Property)}
    (h : d.columns ts p = .ok (cs, p')) :
    d.Employs p (ts.flatMap fun t => t.path.toOption.toList) (cs.map fun c => c.2.1) p' := by
  rw [columns_eq_mapM, Build.mapM_ok_iff] at h
  rw [List.map_eq_flatMap]
  refine .each h fun t _ p p' c hc => ?_
  obtain ⟨path, hpath, hc⟩ := Build.lookup_bind_ok_iff.1 hc
  obtain ⟨⟨column, property⟩, hresolve, rfl⟩ := Build.bind_pure_ok_iff.1 hc
  refine ⟨[(path, column)], .step rfl hresolve (.done rfl), fun x => ?_, fun x => .rfl⟩
  rw [hpath]
  rfl

end Dialog
end ResourceQuery
