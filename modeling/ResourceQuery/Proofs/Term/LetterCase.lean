import Mathlib.Data.List.Forall2
import ResourceQuery.Proofs.Term.Induction

set_option autoImplicit false

/-!
# Terms: the letter case of operator words

Terms that differ in the letter case of their operator words alone.  Leaves are
columns and literals, and a quoted word is no operator, so both are left as they
are.

The relation is equality of the terms in lower case, so it is an equivalence and
can be decided.  What it leaves the same is listed here, for all that compilers
look at.
-/

namespace ResourceQuery.Term

/-- The term with its operator words, those of unquoted terms with arguments, in lower case. -/
def folded : Term → Term :=
  fold fun t children =>
    node (if t.isLeaf || t.isQuoted then t.token else Text.lower t.token) t.quote children

theorem folded_eq (t : Term) : t.folded =
    node (if t.isLeaf || t.isQuoted then t.token else Text.lower t.token) t.quote
      (t.children.map folded) := by
  rw [folded, fold_eq]

theorem folded_node (token : String) (quote : Option Quote) (ts : List Term) :
    folded (node token quote ts) =
      node (if ts.isEmpty || quote.isSome then token else Text.lower token) quote
        (ts.map folded) := folded_eq _

/-- The terms differ in the letter case of their operator words alone. -/
def Recased (t t' : Term) : Prop := t.folded = t'.folded

namespace Recased

variable {t t' : Term}

theorem refl (t : Term) : Recased t t := rfl

theorem symm (h : Recased t t') : Recased t' t := Eq.symm h

theorem quote_eq (h : Recased t t') : t.quote = t'.quote := by
  have hquote := congrArg quote h
  rwa [folded_eq, folded_eq] at hquote

theorem isQuoted_eq (h : Recased t t') : t.isQuoted = t'.isQuoted := by
  rw [isQuoted, isQuoted, h.quote_eq]

theorem children (h : Recased t t') : List.Forall₂ Recased t.children t'.children := by
  have hchildren := congrArg Term.children h
  rw [folded_eq, folded_eq, children_node, children_node] at hchildren
  have hall : List.Forall₂ Eq (t.children.map folded) (t'.children.map folded) := by
    rw [List.forall₂_eq_eq_eq]
    exact hchildren
  rwa [List.forall₂_map_left_iff, List.forall₂_map_right_iff] at hall

/-- What holds of arguments that differ in case alone holds of the arguments, pair by pair. -/
theorem below {token token' : String} {quote quote' : Option Quote} {ts ts' : List Term}
    (h : Recased (node token quote ts) (node token' quote' ts')) {R : Term → Term → Prop}
    (hts : ∀ u ∈ ts, ∀ {u'}, Recased u u' → R u u') : List.Forall₂ R ts ts' := by
  have hboth := (List.forall₂_and_left ts ts').2 ⟨@hts, h.children⟩
  exact hboth.imp fun u u' hu => hu.1 hu.2

theorem isLeaf_eq (h : Recased t t') : t.isLeaf = t'.isLeaf := by
  rw [isLeaf, isLeaf, Bool.eq_iff_iff, List.isEmpty_iff_length_eq_zero,
    List.isEmpty_iff_length_eq_zero, h.children.length_eq]

theorem lower_token_eq (h : Recased t t') : Text.lower t.token = Text.lower t'.token := by
  have htoken := congrArg token h
  rw [folded_eq, folded_eq, token_node, token_node, h.isLeaf_eq, h.isQuoted_eq] at htoken
  split at htoken
  · rw [htoken]
  · exact htoken

/-- The words are the same, or they are operator words that differ in case. -/
theorem token_cases (h : Recased t t') :
    t.token = t'.token ∨ t.isLeaf = false ∧ t.isQuoted = false := by
  have htoken := congrArg token h
  rw [folded_eq, folded_eq, token_node, token_node, ← h.isLeaf_eq, ← h.isQuoted_eq] at htoken
  split at htoken
  · exact .inl htoken
  · next hoperator => exact .inr (Bool.or_eq_false_iff.1 (Bool.eq_false_iff.2 hoperator))

theorem of_children {token token' : String} {quote : Option Quote} {ts ts' : List Term}
    (htoken : token = token' ∨ (ts.isEmpty = false ∧ quote.isSome = false) ∧
      Text.lower token = Text.lower token')
    (hts : List.Forall₂ Recased ts ts') : Recased (node token quote ts) (node token' quote ts') := by
  have hempty : ts'.isEmpty = ts.isEmpty := by
    rw [Bool.eq_iff_iff, List.isEmpty_iff_length_eq_zero, List.isEmpty_iff_length_eq_zero,
      hts.length_eq]
  have hchildren : ts.map folded = ts'.map folded := by
    rw [← List.forall₂_eq_eq_eq, List.forall₂_map_left_iff, List.forall₂_map_right_iff]
    exact hts
  rw [Recased, folded_node, folded_node, hempty, hchildren]
  rcases htoken with rfl | ⟨⟨hnot, hbare⟩, htoken⟩
  · rfl
  · rw [hnot, hbare, htoken]
    rfl

/-- Columns and literals are the same. -/
theorem eq_of_isLeaf (h : Recased t t') (hleaf : t.isLeaf = true) : t = t' := by
  have htoken : t.token = t'.token := by
    rcases h.token_cases with htoken | ⟨hnot, _⟩
    · exact htoken
    · rw [hleaf] at hnot
      cases hnot
  have hleaf' : t'.isLeaf = true := h.isLeaf_eq ▸ hleaf
  obtain ⟨token, quote, children⟩ := t
  obtain ⟨token', quote', children'⟩ := t'
  obtain rfl : children = [] := List.isEmpty_iff.1 hleaf
  obtain rfl : children' = [] := List.isEmpty_iff.1 hleaf'
  obtain rfl : token = token' := htoken
  obtain rfl : quote = quote' := h.quote_eq
  rfl

theorem isWord_eq (h : Recased t t') : t.isWord = t'.isWord := by
  rw [isWord, isWord, h.isLeaf_eq, h.isQuoted_eq]

theorem hasToken_eq (h : Recased t t') (word : String) : t.hasToken word = t'.hasToken word := by
  rw [hasToken, hasToken, Text.sameWord, Text.sameWord, h.isQuoted_eq, h.lower_token_eq]

theorem isNull_eq (h : Recased t t') : t.isNull = t'.isNull := by
  rw [isNull, isNull, h.isLeaf_eq, h.hasToken_eq]

theorem isPattern_eq (h : Recased t t') : t.isPattern = t'.isPattern := by
  cases hword : t.isWord with
  | true => rw [h.eq_of_isLeaf (Bool.and_eq_true_iff.1 hword).1]
  | false => rw [isPattern, isPattern, ← h.isWord_eq, hword, Bool.false_and, Bool.false_and]

theorem eq_of_isPattern (h : Recased t t') (hpattern : t'.isPattern = true) : t = t' := by
  have hword : t'.isWord = true := (Bool.and_eq_true_iff.1 hpattern).1
  exact h.eq_of_isLeaf (h.isLeaf_eq.trans (Bool.and_eq_true_iff.1 hword).1)

end Recased
end ResourceQuery.Term
