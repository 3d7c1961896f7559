import Mathlib.Data.List.Forall2
import ResourceQuery.Proofs.Statement.Columns

set_option autoImplicit false

/-!
# Statements: references to columns, one by one

For a target that decides by connectives, the paths that a term refers to and
the columns of what it is compiled to stand in the same order, and the column in
each place is the one that the path in this place was resolved to.

Order matters here, unlike for `Employs`: the list of paths and the list of
columns are compared place by place, and what one step resolves comes before
what the next one does.
-/

namespace ResourceQuery

variable {σ C : Type}

/-- The columns of an expression from left to right. -/
def Expression.columns : Expression C → List C
  | everything => []
  | column c => [c]
  | numeral _ => []
  | aggregate _ argument => argument.columns
  | choice condition whenTrue whenFalse =>
    condition.columns ++ (whenTrue.columns ++ whenFalse.columns)

/-! ## The references of terms -/

namespace Term

/-- The paths that an operator refers to, from those of the terms it holds.  A
choice is decided by connectives, which take its condition twice, and each text
of a text operator is tested by itself. -/
def referencesBy (t : Term) (inner : List (List String)) : Operator → List String
  | .all | .any | .negation => inner.flatten
  | .choice =>
    match inner with
    | [condition, whenTrue, whenFalse] => (condition ++ whenTrue) ++ (condition ++ whenFalse)
    | _ => []
  | .text _ => t.children.tail.flatMap fun _ => t.column.toOption.toList
  | .comparison _ | .membership _ | .nullity _ | .blankness _ => t.column.toOption.toList

/-- The paths that a filter term refers to, in order. -/
def references : Term → List String :=
  fold fun t inner => (Operator.ofWord? t.token).toList.flatMap (t.referencesBy inner)

theorem references_eq (t : Term) {op : Operator} (hop : Operator.ofWord? t.token = some op) :
    t.references = t.referencesBy (t.children.map references) op := by
  rw [references, fold_eq, hop]
  exact List.flatMap_singleton _ op

theorem references_connective {token : String} {quote : Option Quote} {children : List Term}
    {op : Operator} (hop : Operator.ofWord? token = some op)
    (hconnective : op = .all ∨ op = .any ∨ op = .negation) :
    (node token quote children).references = children.flatMap references := by
  rw [references_eq (node token quote children) hop, List.flatMap_def, children_node]
  rcases hconnective with rfl | rfl | rfl
  · rfl
  · rfl
  · rfl

/-- The paths that the expression of a computed column refers to, in order.  A
word by itself is a path, unless it is `*`, and a numeral that is a result of a
choice stands for itself. -/
def shownReferences : Term → List String :=
  fold fun t inner =>
    if t.isLeaf then if t.token = "*" then [] else [t.token]
    else if Text.lower t.token = "if" then
      match t.children, inner with
      | [condition, whenTrue, whenFalse], [_, ofTrue, ofFalse] =>
        condition.references ++ ((if Dialog.isNumeral whenTrue then [] else ofTrue) ++
          (if Dialog.isNumeral whenFalse then [] else ofFalse))
      | _, _ => []
    else inner.flatten

theorem shownReferences_leaf {t : Term} (h : t.isLeaf = true) :
    t.shownReferences = if t.token = "*" then [] else [t.token] := by
  rw [shownReferences, fold_eq, if_pos h]

theorem shownReferences_choice {token : String} {quote : Option Quote}
    {condition whenTrue whenFalse : Term} (h : Text.lower token = "if") :
    (node token quote [condition, whenTrue, whenFalse]).shownReferences =
      condition.references ++
        ((if Dialog.isNumeral whenTrue then [] else whenTrue.shownReferences) ++
          (if Dialog.isNumeral whenFalse then [] else whenFalse.shownReferences)) := by
  have hleaf : ¬(node token quote [condition, whenTrue, whenFalse]).isLeaf = true :=
    Bool.false_ne_true
  rw [shownReferences, fold_eq, if_neg hleaf, token_node, if_pos h]
  rfl

theorem shownReferences_aggregate {token : String} {quote : Option Quote} {argument : Term}
    (h : Text.lower token ≠ "if") :
    (node token quote [argument]).shownReferences = argument.shownReferences := by
  have hleaf : ¬(node token quote [argument]).isLeaf = true := Bool.false_ne_true
  rw [shownReferences, fold_eq, if_neg hleaf, token_node, if_neg h, children_node]
  exact List.append_nil _

end Term

/-! ## Steps that refer to columns -/

namespace Dialog

variable {d : Dialog σ C} {p p' p'' : Progress σ} {paths paths' : List String}
  {columns columns' : List C}

/-- The step resolves these paths, and no others, to the columns in their places. -/
def Refers (d : Dialog σ C) (p : Progress σ) (paths : List String) (columns : List C)
    (p' : Progress σ) : Prop :=
  ∃ uses, d.Resolves p uses p' ∧
    List.Forall₂ (fun path c => (path, c) ∈ uses) paths columns ∧ ∀ use ∈ uses, use.1 ∈ paths

theorem Refers.nil (h : p'.scope = p.scope) : d.Refers p [] [] p' :=
  ⟨[], .done h, .nil, fun _ huse => absurd huse List.not_mem_nil⟩

theorem Refers.trans (h : d.Refers p paths columns p') (h' : d.Refers p' paths' columns' p'') :
    d.Refers p (paths ++ paths') (columns ++ columns') p'' := by
  obtain ⟨uses, hresolves, hcolumns, hpaths⟩ := h
  obtain ⟨uses', hresolves', hcolumns', hpaths'⟩ := h'
  refine ⟨uses ++ uses', hresolves.trans hresolves', List.rel_append ?_ ?_, fun use huse => ?_⟩
  · exact hcolumns.imp fun _ _ hmem => List.mem_append_left uses' hmem
  · exact hcolumns'.imp fun _ _ hmem => List.mem_append_right uses hmem
  · rcases List.mem_append.1 huse with huse | huse
    · exact List.mem_append_left paths' (hpaths use huse)
    · exact List.mem_append_right paths (hpaths' use huse)

/-- The same step for each element of a list. -/
theorem Refers.each {α β : Type} {f : α → Build σ β} {pathsOf : α → List String}
    {columnsOf : β → List C} {xs : List α} {ys : List β} (h : Build.Each f xs p ys p')
    (hstep : ∀ x ∈ xs, ∀ (p p' : Progress σ) (y : β), f x p = .ok (y, p') →
      d.Refers p (pathsOf x) (columnsOf y) p') :
    d.Refers p (xs.flatMap pathsOf) (ys.flatMap columnsOf) p' :=
  h.collect (fun _ => .nil rfl) .trans hstep

/-- A path that is resolved once, and a step that refers to it at least once and
adds nothing to the known names. -/
theorem Refers.of_resolve {path : String} {c : C} {property : Property}
    (h : d.resolve path p = .ok ((c, property), p')) (hscope : p''.scope = p'.scope)
    (hcolumns : List.Forall₂ (fun x y => x = path ∧ y = c) paths columns) (hne : paths ≠ []) :
    d.Refers p paths columns p'' := by
  refine ⟨[(path, c)], .step rfl h (.done hscope), hcolumns.imp fun x y hxy => ?_, fun use huse => ?_⟩
  · rw [hxy.1, hxy.2]
    exact List.mem_singleton_self _
  · rw [List.mem_singleton.1 huse]
    cases hcolumns with
    | nil => exact absurd rfl hne
    | cons hfirst _ => exact hfirst.1 ▸ List.mem_cons_self

theorem Addresses.refers {t : Term} {path : String} {c : C} {property : Property}
    (h : d.Addresses t p path c property p') (hscope : p''.scope = p'.scope)
    (hcolumns : columns = [c]) : d.Refers p t.column.toOption.toList columns p'' := by
  rw [h.path_eq, hcolumns]
  exact .of_resolve h.resolves hscope (.cons ⟨rfl, rfl⟩ .nil) (List.cons_ne_nil _ _)

/-! ## The compilers -/

theorem AtomRun.refers (hd : d.Concerns) {t : Term} {op : Operator} {q : Predicate C}
    (h : d.AtomRun t p op q p') (inner : List (List String)) :
    d.Refers p (t.referencesBy inner op) q.columns p' := by
  cases h with
  | isNull ha _ _ => exact ha.refers rfl (by rw [Predicate.columns])
  | isNotNull ha _ _ => exact ha.refers rfl (by rw [Predicate.columns])
  | like ha _ _ _ htest =>
    obtain ⟨hcolumns, hscope⟩ := hd.test htest
    exact ha.refers hscope hcolumns
  | unlike ha _ _ _ htest =>
    obtain ⟨hcolumns, hscope⟩ := hd.test htest
    exact ha.refers hscope ((hd.unlike _).trans hcolumns)
  | compared op ha _ _ _ hbind =>
    exact ha.refers (scope_eq_of_bindLiteral hbind) (by rw [Predicate.columns])
  | @among path c property p₁ _ values markers negated ha _ hbind =>
    have hcolumns : (if negated then d.outside c markers else
        .membership false c markers).columns = [c] := by
      split
      · exact hd.outside c markers
      · rw [Predicate.columns]
    exact ha.refers (scope_eq_of_each hbind fun _ _ _ _ hk => scope_eq_of_bindLiteral hk) hcolumns
  | nullity isNull _ ha => exact ha.refers rfl (by rw [Predicate.columns])
  | blankness isBlank _ ha hblank =>
    obtain ⟨hcolumns, hscope⟩ := hd.blankness hblank
    exact ha.refers hscope hcolumns
  | @text path c property p₁ _ values parts op _ ha hvs htests =>
    have htest : ∀ {value : Term} {p p' : Progress σ} {q : Predicate C},
        d.testLiteral op c path value p = .ok (q, p') → q.columns = [c] ∧ p'.scope = p.scope := by
      intro value p p' q hq
      obtain ⟨text, _, htest⟩ := Build.lookup_bind_ok_iff.1 hq
      exact hd.test htest
    -- the column is tested once for each value, and the path is a reference as many times
    have hparts : ∀ {values : List Term} {parts : List (Predicate C)} {p p' : Progress σ},
        Build.Each (d.testLiteral op c path) values p parts p' →
        List.Forall₂ (fun x y => x = path ∧ y = c) (values.flatMap fun _ => [path])
          (parts.flatMap Predicate.columns) := by
      intro values parts p p' h
      induction h with
      | nil => exact .nil
      | cons hx _ ih =>
        rw [List.flatMap_cons, List.flatMap_cons, (htest hx).1]
        exact .cons ⟨rfl, rfl⟩ ih
    have hcolumns : (if op = .lacks then Predicate.allOf parts else .anyOf parts).columns =
        parts.flatMap Predicate.columns := by
      split
      · exact Predicate.columns_allOf parts
      · exact Predicate.columns_anyOf parts
    have hscope := scope_eq_of_each htests fun _ _ _ _ hq => (htest hq).2
    have hne : (values.flatMap fun _ => [path]) ≠ [] := by
      cases values with
      | nil => exact absurd rfl (Term.ne_nil_of_values hvs)
      | cons value values => exact List.cons_ne_nil _ _
    rw [hcolumns, Term.referencesBy, ha.path_eq, Term.tail_of_values hvs]
    exact .of_resolve ha.resolves hscope (hparts htests) hne

/-- The columns of a predicate are those of the references of its term. -/
theorem refers_predicate (hd : d.Concerns) (hdeciding : d.deciding = .connectives) (t : Term) :
    ∀ {p p' : Progress σ} {q : Predicate C}, d.predicate t p = .ok (q, p') →
      d.Refers p t.references q.columns p' := by
  induction t using Term.induction with
  | node token quote children ih =>
    intro p p' q h
    cases run_of_predicate h with
    | all hop _ hparts =>
      rw [Term.references_connective hop (.inl rfl), Predicate.columns_allOf]
      exact .each hparts fun t ht _ _ _ h => ih t ht h
    | any hop _ hparts =>
      rw [Term.references_connective hop (.inr (.inl rfl)), Predicate.columns_anyOf]
      exact .each hparts fun t ht _ _ _ h => ih t ht h
    | negation hop hpart =>
      rw [Term.references_connective hop (.inr (.inr rfl)), List.flatMap_singleton,
        Predicate.columns]
      exact ih _ (List.mem_singleton_self _) hpart
    | conditional _ hconditional _ _ _ =>
      rw [hdeciding] at hconditional
      cases hconditional
    | connectives hop _ hc ht hagain hf =>
      have hwhole := ((ih _ (by simp) hc).trans (ih _ (by simp) ht)).trans
        ((ih _ (by simp) hagain).trans (ih _ (by simp) hf))
      rw [Term.references_eq (.node token quote _) hop]
      simpa [Term.referencesBy, Predicate.columns, Predicate.columnsAll] using hwhole
    | atom hop hatom =>
      rw [Term.references_eq _ hop]
      exact hatom.refers hd _

theorem refers_predicates (hd : d.Concerns) (hdeciding : d.deciding = .connectives)
    {ts : List Term} {qs : List (Predicate C)} (h : d.predicates ts p = .ok (qs, p')) :
    d.Refers p (ts.flatMap Term.references) (qs.flatMap Predicate.columns) p' :=
  .each (predicates_ok_iff.1 h) fun t _ _ _ _ ht => refers_predicate hd hdeciding t ht

variable {star : Bool → Term → Option (Expression C)}

/-- The words for whole rows are `*`, and they have no columns. -/
structure Starry (star : Bool → Term → Option (Expression C)) : Prop where
  leaf : ∀ {inside : Bool} {t : Term} {e : Expression C}, star inside t = some e →
    t.isLeaf = true ∧ t.token = "*" ∧ e.columns = []
  word : ∀ inside : Bool, (star inside (.word "*")).isSome = true

/-- The columns of an expression are those of the references of its term. -/
theorem refers_expression (hd : d.Concerns) (hdeciding : d.deciding = .connectives)
    (hstar : Starry star) (t : Term) :
    ∀ {inside : Bool} {p p' : Progress σ} {e : Expression C},
      d.expression star inside t p = .ok (e, p') → d.Refers p t.shownReferences e.columns p' := by
  induction t using Term.induction with
  | node token quote children ih =>
    intro inside p p' e h
    have hbranch : ∀ t ∈ children, ∀ {p p' : Progress σ} {e : Expression C},
        branch t (d.expression star false t) p = .ok (e, p') →
        d.Refers p (if isNumeral t then [] else t.shownReferences) e.columns p' := by
      intro t ht p p' e h
      rcases branch_ok h with ⟨hnumeral, rfl, rfl⟩ | ⟨hnumeral, h⟩
      · rw [if_pos hnumeral]
        exact .nil rfl
      · rw [if_neg (by simp [hnumeral])]
        exact ih t ht h
    cases run_of_expression h with
    | whole hwhole =>
      obtain ⟨hleaf, hword, hcolumns⟩ := hstar.leaf hwhole
      rw [Term.shownReferences_leaf hleaf, if_pos hword, hcolumns]
      exact .nil rfl
    | column hnone hresolve =>
      have hword : token ≠ "*" := by
        rintro rfl
        have hsome := hstar.word inside
        rw [show star inside (.word "*") = none from hnone] at hsome
        cases hsome
      rw [Term.shownReferences_leaf rfl, Term.token_node, if_neg hword, Expression.columns]
      exact .of_resolve hresolve rfl (.cons ⟨rfl, rfl⟩ .nil) (List.cons_ne_nil _ _)
    | aggregate _ hfunction hargument =>
      rw [Term.shownReferences_aggregate (lower_ne_of_aggregate hfunction), Expression.columns]
      exact ih _ (List.mem_singleton_self _) hargument
    | choice _ _ hif hc ht hf =>
      rw [Term.shownReferences_choice hif, Expression.columns]
      exact (refers_predicate hd hdeciding _ hc).trans
        ((hbranch _ (by simp) ht).trans (hbranch _ (by simp) hf))

theorem refers_computed (hd : d.Concerns) (hdeciding : d.deciding = .connectives)
    (hstar : Starry star) {cs : List Computed} {es : List (Computed × Expression C)}
    (h : d.computed star cs p = .ok (es, p')) :
    d.Refers p (cs.flatMap fun c => c.expression.shownReferences)
      (es.flatMap fun e => e.2.columns) p' := by
  rw [computed_eq_mapM, Build.mapM_ok_iff] at h
  refine .each h fun c _ p p' e he => ?_
  obtain ⟨e', hexpression, rfl⟩ := Build.bind_pure_ok_iff.1 he
  exact refers_expression hd hdeciding hstar c.expression hexpression

theorem refers_columns {ts : List Term} {cs : List (String × C × Property)}
    (h : d.columns ts p = .ok (cs, p')) :
    d.Refers p (ts.map Term.token) (cs.map fun c => c.2.1) p' := by
  rw [columns_eq_mapM, Build.mapM_ok_iff] at h
  rw [List.map_eq_flatMap, List.map_eq_flatMap]
  refine .each h fun t _ p p' c hc => ?_
  obtain ⟨path, hpath, hc⟩ := Build.lookup_bind_ok_iff.1 hc
  obtain ⟨⟨column, property⟩, hresolve, rfl⟩ := Build.bind_pure_ok_iff.1 hc
  have htoken : t.token = path := by
    unfold Term.path at hpath
    split at hpath
    · exact Except.ok.inj hpath
    · cases hpath
  exact .of_resolve hresolve rfl (.cons ⟨htoken, rfl⟩ .nil) (List.cons_ne_nil _ _)

theorem refers_groups {ts : List Term} {cs : List C} (h : d.groups ts p = .ok (cs, p')) :
    d.Refers p (ts.map Term.token) cs p' := by
  have hself : cs = cs.flatMap fun c => [c] := by simp
  rw [groups_eq_mapM, Build.mapM_ok_iff] at h
  rw [List.map_eq_flatMap, hself]
  refine .each h fun t _ p p' c hc => ?_
  obtain ⟨⟨column, property⟩, hresolve, rfl⟩ := Build.bind_pure_ok_iff.1 hc
  exact .of_resolve hresolve rfl (.cons ⟨rfl, rfl⟩ .nil) (List.cons_ne_nil _ _)

end Dialog
end ResourceQuery
