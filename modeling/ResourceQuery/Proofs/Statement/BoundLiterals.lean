import Mathlib.Data.List.Forall2
import ResourceQuery.Proofs.Statement.Truth

set_option autoImplicit false

/-!
# Statements: the literals that are bound

Of a filter term made of connectives, comparisons, memberships and tests for
null, every target binds the same literals in the same order, each as a value of
the property that the target reads its path by.  Targets that read the paths by
the same properties thus bind the same values.

The literals are collected from the term, with no compiler in sight; `Binds`
then says that a step bound just these.  It passes from steps to sequences of
steps (`Binds.trans`, `Binds.each`), so the theorem about predicates is an
induction over the term with one case for each form of a run.
-/

namespace ResourceQuery

/-! ## Terms that bind the same for all targets -/

namespace Term

/-- The operator binds the same for all targets, provided that the terms it
holds do.  Patterns are matched by each target in its own way. -/
def portableBy (t : Term) (inner : List Bool) : Operator → Bool
  | .all | .any | .negation => inner.all id
  | .comparison op => !((op = .eq || op = .ne) && t.children.tail.any isPattern)
  | .membership _ | .nullity _ => true
  | .choice | .blankness _ | .text _ => false

/-- The filter term is made of `and`, `or`, `not`, comparisons, memberships and
tests for null, and no equation or inequality is one with a pattern. -/
def isPortable : Term → Bool :=
  fold fun t inner => (Operator.ofWord? t.token).any (t.portableBy inner)

theorem isPortable_eq (t : Term) {op : Operator} (hop : Operator.ofWord? t.token = some op) :
    t.isPortable = t.portableBy (t.children.map isPortable) op := by
  rw [isPortable, fold_eq, hop, Option.any_some]

/-- The arguments of a connective are portable as well. -/
theorem isPortable_child {token : String} {quote : Option Quote} {children : List Term}
    {op : Operator} (hop : Operator.ofWord? token = some op)
    (hconnective : op = .all ∨ op = .any ∨ op = .negation)
    (h : (node token quote children).isPortable = true) : ∀ t ∈ children, t.isPortable = true := by
  have hall : (children.map isPortable).all id = true := by
    rw [isPortable_eq (node token quote children) hop] at h
    rcases hconnective with rfl | rfl | rfl
    · exact h
    · exact h
    · exact h
  simpa using hall

/-- The terms, each with the path of the column that the term is about. -/
def against (t : Term) (values : List Term) : List (String × Term) :=
  t.column.toOption.toList.flatMap fun path => values.map (Prod.mk path)

theorem against_eq {t : Term} {path : String} (h : t.column = .ok path) (values : List Term) :
    t.against values = values.map (Prod.mk path) := by
  rw [against, h]
  exact List.flatMap_singleton _ path

/-- The literals that the operator binds, besides those of the terms it holds. -/
def literalsBy (t : Term) (inner : List (List (String × Term))) : Operator → List (String × Term)
  | .all | .any | .negation => inner.flatten
  | .comparison _ => t.against (t.children.tail.filter fun value => !value.isNull)
  | .membership _ => t.against t.children.tail
  | .choice | .nullity _ | .blankness _ | .text _ => []

/-- The literals that a portable filter term binds, in order, each with the path of its column. -/
def literals : Term → List (String × Term) :=
  fold fun t inner => (Operator.ofWord? t.token).toList.flatMap (t.literalsBy inner)

theorem literals_eq (t : Term) {op : Operator} (hop : Operator.ofWord? t.token = some op) :
    t.literals = t.literalsBy (t.children.map literals) op := by
  rw [literals, fold_eq, hop]
  exact List.flatMap_singleton _ op

theorem literals_connective {token : String} {quote : Option Quote} {children : List Term}
    {op : Operator} (hop : Operator.ofWord? token = some op)
    (hconnective : op = .all ∨ op = .any ∨ op = .negation) :
    (node token quote children).literals = children.flatMap literals := by
  rw [literals_eq (node token quote children) hop, List.flatMap_def, children_node]
  rcases hconnective with rfl | rfl | rfl
  · rfl
  · rfl
  · rfl

/-- The conditions of the choices in the expression of a computed column, in order. -/
def conditions : Term → List Term :=
  fold fun t inner =>
    if Text.lower t.token = "if" then t.children.take 1 ++ inner.tail.flatten else inner.flatten

theorem conditions_choice {token : String} {quote : Option Quote} {condition : Term}
    {results : List Term} (h : Text.lower token = "if") :
    (node token quote (condition :: results)).conditions =
      condition :: results.flatMap conditions := by
  rw [conditions, fold_eq, token_node, if_pos h, children_node, List.flatMap_def]
  rfl

theorem conditions_other {token : String} {quote : Option Quote} {children : List Term}
    (h : Text.lower token ≠ "if") :
    (node token quote children).conditions = children.flatMap conditions := by
  rw [conditions, fold_eq, token_node, if_neg h, children_node, List.flatMap_def]

theorem conditions_leaf {t : Term} (h : t.isLeaf = true) : t.conditions = [] := by
  rw [conditions, fold_eq, List.isEmpty_iff.1 h]
  split
  · rfl
  · rfl

end Term

/-! ## Steps that bind literals -/

/-- The literal is bound for its path, as a value of the property that the path is read by. -/
def Reads (reading : String → Except Fault Property) (x : String × Term) (b : String × Value) :
    Prop :=
  b.1 = x.1 ∧ ∃ property, reading x.1 = .ok property ∧ Value.cast property x.2 = .ok b.2

/-- Where two readings of the paths agree, the same values are bound. -/
theorem eq_of_reads {reading reading' : String → Except Fault Property}
    (hagree : ∀ path property property', reading path = .ok property →
      reading' path = .ok property' → property = property')
    {literals : List (String × Term)} {bound bound' : Bindings}
    (h : List.Forall₂ (Reads reading) literals bound)
    (h' : List.Forall₂ (Reads reading') literals bound') : bound = bound' := by
  induction h generalizing bound' with
  | nil =>
    cases h'
    rfl
  | @cons x b literals bound hb _ ih =>
    cases h' with
    | @cons _ b' _ bound' hb' hrest =>
      obtain ⟨hpath, property, hread, hcast⟩ := hb
      obtain ⟨hpath', property', hread', hcast'⟩ := hb'
      obtain rfl := hagree x.1 property property' hread hread'
      have hvalue : b.2 = b'.2 := Except.ok.inj (hcast.symm.trans hcast')
      rw [Prod.ext (hpath.trans hpath'.symm) hvalue, ih hrest]

/-- The step from `p` to `p'` binds these literals. -/
def Binds {σ : Type} (reading : String → Except Fault Property) (p p' : Progress σ)
    (literals : List (String × Term)) : Prop :=
  ∃ bound, p'.values = p.values ++ bound ∧ List.Forall₂ (Reads reading) literals bound

namespace Binds

variable {σ : Type} {reading : String → Except Fault Property} {p p' p'' : Progress σ}
  {literals literals' : List (String × Term)}

theorem of_values_eq (h : p'.values = p.values) : Binds reading p p' [] :=
  ⟨[], by rw [h, List.append_nil], .nil⟩

theorem trans (h : Binds reading p p' literals) (h' : Binds reading p' p'' literals') :
    Binds reading p p'' (literals ++ literals') := by
  obtain ⟨bound, hvalues, hreads⟩ := h
  obtain ⟨bound', hvalues', hreads'⟩ := h'
  refine ⟨bound ++ bound', ?_, List.rel_append hreads hreads'⟩
  rw [hvalues', hvalues, List.append_assoc]

/-- A step after one that binds nothing. -/
theorem after (h : p'.values = p.values) (h' : Binds reading p' p'' literals) :
    Binds reading p p'' literals := by
  have hwhole := (of_values_eq h).trans h'
  rwa [List.nil_append] at hwhole

/-- The same step for each element of a list. -/
theorem each {α β : Type} {f : α → Build σ β} {literalsOf : α → List (String × Term)} {xs : List α}
    {ys : List β} (h : Build.Each f xs p ys p')
    (hstep : ∀ x ∈ xs, ∀ (p p' : Progress σ) (y : β), f x p = .ok (y, p') →
      Binds reading p p' (literalsOf x)) :
    Binds reading p p' (xs.flatMap literalsOf) :=
  h.collect (R := fun p literals (_ : List Unit) p' => Binds reading p p' literals)
    (k := fun _ => []) (fun _ => of_values_eq rfl) trans hstep

end Binds

/-! ## The compilers -/

namespace Dialog

variable {σ C : Type} {d : Dialog σ C} {reading : String → Except Fault Property}
  {p p' : Progress σ}

/-- The target reads the literals of a path by this property, and binds nothing to find it. -/
structure ReadsBy (d : Dialog σ C) (reading : String → Except Fault Property) : Prop where
  resolve : ∀ {path : String} {p p' : Progress σ} {c : C} {property : Property},
    d.resolve path p = .ok ((c, property), p') → reading path = .ok property ∧ p'.values = p.values

/-- The literal of a term is bound as a value of the property. -/
theorem binds_bindLiteral {path : String} {property : Property} {value : Term} {k : Nat}
    (hread : reading path = .ok property) (h : bindLiteral path property value p = .ok (k, p')) :
    Binds reading p p' [(path, value)] := by
  obtain ⟨bound, hcast, hbind⟩ := Build.lookup_bind_ok_iff.1 h
  obtain ⟨_, rfl⟩ := Build.bind_value_ok_iff.1 hbind
  exact ⟨[(path, bound)], rfl, .cons ⟨rfl, property, hread, hcast⟩ .nil⟩

theorem AtomRun.binds (hd : d.ReadsBy reading) {t : Term} {op : Operator} {q : Predicate C}
    (h : d.AtomRun t p op q p') (inner : List Bool) (hportable : t.portableBy inner op = true)
    (held : List (List (String × Term))) : Binds reading p p' (t.literalsBy held op) := by
  cases h with
  | isNull ha hv hnull =>
    rw [Term.literalsBy, Term.tail_of_value hv, Term.against_eq ha.path_eq,
      List.filter_cons_of_neg (by simp [hnull])]
    exact .of_values_eq (hd.resolve ha.resolves).2
  | isNotNull ha hv hnull =>
    rw [Term.literalsBy, Term.tail_of_value hv, Term.against_eq ha.path_eq,
      List.filter_cons_of_neg (by simp [hnull])]
    exact .of_values_eq (hd.resolve ha.resolves).2
  | like _ hv _ hpattern _ =>
    rw [Term.portableBy, Term.tail_of_value hv] at hportable
    simp [hpattern] at hportable
  | unlike _ hv _ hpattern _ =>
    rw [Term.portableBy, Term.tail_of_value hv] at hportable
    simp [hpattern] at hportable
  | compared op ha hv hnull _ hbind =>
    obtain ⟨hread, hvalues⟩ := hd.resolve ha.resolves
    rw [Term.literalsBy, Term.tail_of_value hv, Term.against_eq ha.path_eq,
      List.filter_cons_of_pos (by simp [hnull])]
    exact .after hvalues (binds_bindLiteral hread hbind)
  | among negated ha hvs hbind =>
    obtain ⟨hread, hvalues⟩ := hd.resolve ha.resolves
    rw [Term.literalsBy, Term.tail_of_values hvs, Term.against_eq ha.path_eq, List.map_eq_flatMap]
    exact .after hvalues (.each hbind fun _ _ _ _ _ hk => binds_bindLiteral hread hk)
  | nullity isNull _ ha => exact .of_values_eq (hd.resolve ha.resolves).2
  | blankness isBlank _ _ _ => cases hportable
  | text op _ _ _ _ => cases hportable

/-- A portable term binds its literals. -/
theorem binds_predicate (hd : d.ReadsBy reading) (t : Term) :
    ∀ {p p' : Progress σ} {q : Predicate C}, t.isPortable = true →
      d.predicate t p = .ok (q, p') → Binds reading p p' t.literals := by
  induction t using Term.induction with
  | node token quote children ih =>
    intro p p' q hportable h
    cases run_of_predicate h with
    | all hop _ hparts =>
      have hchildren := Term.isPortable_child hop (.inl rfl) hportable
      rw [Term.literals_connective hop (.inl rfl)]
      exact .each hparts fun t ht _ _ _ h => ih t ht (hchildren t ht) h
    | any hop _ hparts =>
      have hchildren := Term.isPortable_child hop (.inr (.inl rfl)) hportable
      rw [Term.literals_connective hop (.inr (.inl rfl))]
      exact .each hparts fun t ht _ _ _ h => ih t ht (hchildren t ht) h
    | @negation _ _ inner _ _ _ hop hpart =>
      have hchildren := Term.isPortable_child hop (.inr (.inr rfl)) hportable
      have hmem : inner ∈ [inner] := List.mem_singleton_self inner
      rw [Term.literals_connective hop (.inr (.inr rfl)), List.flatMap_singleton]
      exact ih inner hmem (hchildren inner hmem) hpart
    | conditional hop _ _ _ _ =>
      rw [Term.isPortable_eq (.node token quote _) hop] at hportable
      cases hportable
    | connectives hop _ _ _ _ _ =>
      rw [Term.isPortable_eq (.node token quote _) hop] at hportable
      cases hportable
    | atom hop hatom =>
      rw [Term.isPortable_eq _ hop] at hportable
      rw [Term.literals_eq _ hop]
      exact hatom.binds hd _ hportable _

theorem binds_predicates (hd : d.ReadsBy reading) {ts : List Term} {qs : List (Predicate C)}
    (hportable : ∀ t ∈ ts, t.isPortable = true) (h : d.predicates ts p = .ok (qs, p')) :
    Binds reading p p' (ts.flatMap Term.literals) :=
  .each (predicates_ok_iff.1 h) fun t ht _ _ _ hq => binds_predicate hd t (hportable t ht) hq

variable {star : Bool → Term → Option (Expression C)}

/-- An expression binds the literals of its conditions. -/
theorem binds_expression (hd : d.ReadsBy reading)
    (hstar : ∀ {inside t e}, star inside t = some e → t.isLeaf = true) (t : Term) :
    ∀ {inside : Bool} {p p' : Progress σ} {e : Expression C},
      (∀ u ∈ t.conditions, u.isPortable = true) → d.expression star inside t p = .ok (e, p') →
      Binds reading p p' (t.conditions.flatMap Term.literals) := by
  induction t using Term.induction with
  | node token quote children ih =>
    intro inside p p' e hportable h
    have hbranch : ∀ t ∈ children, ∀ {p p' : Progress σ} {e : Expression C},
        (∀ u ∈ t.conditions, u.isPortable = true) →
        branch t (d.expression star false t) p = .ok (e, p') →
        Binds reading p p' (t.conditions.flatMap Term.literals) := by
      intro t ht p p' e hportable h
      rcases branch_ok h with ⟨hnumeral, _, rfl⟩ | ⟨_, h⟩
      · have hleaf : t.isLeaf = true :=
          (Bool.and_eq_true_iff.1 (Bool.and_eq_true_iff.1 hnumeral).1).1
        rw [Term.conditions_leaf hleaf]
        exact .of_values_eq rfl
      · exact ih t ht hportable h
    cases run_of_expression h with
    | whole hwhole =>
      rw [Term.conditions_leaf (hstar hwhole)]
      exact .of_values_eq rfl
    | column _ hresolve =>
      rw [Term.conditions_leaf rfl]
      exact .of_values_eq (hd.resolve hresolve).2
    | aggregate _ hfunction hargument =>
      rw [Term.conditions_other (lower_ne_of_aggregate hfunction), List.flatMap_singleton]
        at hportable ⊢
      exact ih _ (List.mem_singleton_self _) hportable hargument
    | choice _ _ hif hc ht hf =>
      rw [Term.conditions_choice hif] at hportable ⊢
      simp only [List.flatMap_cons, List.flatMap_nil, List.append_nil, List.mem_cons,
        List.mem_append, List.flatMap_append] at hportable ⊢
      exact (binds_predicate hd _ (hportable _ (.inl rfl)) hc).trans
        ((hbranch _ (by simp) (fun u hu => hportable u (.inr (.inl hu))) ht).trans
          (hbranch _ (by simp) (fun u hu => hportable u (.inr (.inr hu))) hf))

theorem binds_computed (hd : d.ReadsBy reading)
    (hstar : ∀ {inside t e}, star inside t = some e → t.isLeaf = true) {cs : List Computed}
    {es : List (Computed × Expression C)}
    (hportable : ∀ c ∈ cs, ∀ u ∈ c.expression.conditions, u.isPortable = true)
    (h : d.computed star cs p = .ok (es, p')) :
    Binds reading p p' (cs.flatMap fun c => c.expression.conditions.flatMap Term.literals) := by
  rw [computed_eq_mapM, Build.mapM_ok_iff] at h
  refine .each h fun c hc p p' e he => ?_
  obtain ⟨e', hexpression, rfl⟩ := Build.bind_pure_ok_iff.1 he
  exact binds_expression hd hstar c.expression (hportable c hc) hexpression

end Dialog
end ResourceQuery
