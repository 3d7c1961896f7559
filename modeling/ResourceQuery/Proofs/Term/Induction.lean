import ResourceQuery.Term

set_option autoImplicit false

/-!
# Terms: induction and folds

A property of terms that passes from the arguments to the term holds of every
term; and a function of a term and of what it gives for the arguments is defined
on every term.

Terms hold lists of terms, so the induction goes over terms and lists of them at
once; it is done here, and proofs elsewhere see only the rule for one term.
-/

namespace ResourceQuery.Term

mutual

theorem induction {motive : Term → Prop}
    (node : ∀ token quote children, (∀ c ∈ children, motive c) →
      motive (.node token quote children)) : ∀ t, motive t
  | .node token quote children => node token quote children (inductionAll node children)

theorem inductionAll {motive : Term → Prop}
    (node : ∀ token quote children, (∀ c ∈ children, motive c) →
      motive (.node token quote children)) : ∀ ts : List Term, ∀ t ∈ ts, motive t
  | [] => fun _ h => absurd h List.not_mem_nil
  | t :: ts => by
    intro u h
    have ht := induction node t
    have hts := inductionAll node ts
    rcases List.mem_cons.1 h with rfl | h
    · exact ht
    · exact hts u h

end

/-! ## Folds -/

mutual

/-- The value of a term, from the term and the values of its arguments. -/
def fold {α : Type} (f : Term → List α → α) : Term → α
  | .node token quote children => f (.node token quote children) (foldAll f children)

/-- The values of several terms. -/
def foldAll {α : Type} (f : Term → List α → α) : List Term → List α
  | [] => []
  | t :: ts => fold f t :: foldAll f ts

end

theorem foldAll_eq_map {α : Type} (f : Term → List α → α) (ts : List Term) :
    foldAll f ts = ts.map (fold f) := by
  induction ts with
  | nil => rw [foldAll, List.map_nil]
  | cons t ts ih => rw [foldAll, ih, List.map_cons]

/-- The value of a term is made from the values of its arguments. -/
theorem fold_eq {α : Type} (f : Term → List α → α) (t : Term) :
    fold f t = f t (t.children.map (fold f)) := by
  obtain ⟨token, quote, children⟩ := t
  rw [fold, foldAll_eq_map, children_node]

/-- The term, its arguments, their arguments, and so on; each before those under it. -/
def subterms : Term → List Term := fold fun t below => t :: below.flatten

theorem subterms_eq (t : Term) : t.subterms = t :: t.children.flatMap subterms := by
  rw [subterms, fold_eq, List.flatMap_def]

theorem mem_subterms_self (t : Term) : t ∈ t.subterms := by
  rw [subterms_eq]
  exact List.mem_cons_self

theorem mem_subterms {t u : Term} :
    u ∈ t.subterms ↔ u = t ∨ ∃ child ∈ t.children, u ∈ child.subterms := by
  rw [subterms_eq, List.mem_cons, List.mem_flatMap]

theorem mem_subterms_of_child {t child u : Term} (hchild : child ∈ t.children)
    (h : u ∈ child.subterms) : u ∈ t.subterms :=
  mem_subterms.2 (.inr ⟨child, hchild, h⟩)

theorem forall_subterms {t : Term} {p : Term → Prop} :
    (∀ u ∈ t.subterms, p u) ↔ p t ∧ ∀ child ∈ t.children, ∀ u ∈ child.subterms, p u := by
  constructor
  · intro h
    exact ⟨h t t.mem_subterms_self, fun child hchild u hu => h u (mem_subterms_of_child hchild hu)⟩
  · rintro ⟨hroot, hbelow⟩ u hu
    rcases mem_subterms.1 hu with rfl | ⟨child, hchild, hu⟩
    · exact hroot
    · exact hbelow child hchild u hu

/-- What is under a subterm is under the term. -/
theorem subterms_trans {t u v : Term} (hu : u ∈ t.subterms) (hv : v ∈ u.subterms) :
    v ∈ t.subterms := by
  induction t using Term.induction with
  | node token quote children ih =>
    rcases mem_subterms.1 hu with rfl | ⟨child, hchild, hu⟩
    · exact hv
    · exact mem_subterms_of_child hchild (ih child hchild hu)

end ResourceQuery.Term
