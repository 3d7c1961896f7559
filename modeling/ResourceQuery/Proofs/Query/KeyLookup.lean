import ResourceQuery.Proofs.Query.Composition
import ResourceQuery.Request

set_option autoImplicit false

/-!
# Query: rows by their keys

A query that is a key term with one key asks for nothing but that the columns of
the index have the components of the key as their values, in the order of the
index.
-/

namespace ResourceQuery

open Condition (equation valueLeaf)

/-- The text is one fragment, which writes the term. -/
def Fragment.Writes (text : String) (t : Term) : Prop :=
  ∃ fragment, split text = [fragment] ∧ parse fragment = .ok t

/-- The term is a key term with one key for a unique index, which has the
properties; the key has the components. -/
structure KeyLookup (c : Collection) (t index key : Term) (ps : List Property)
    (parts : List String) : Prop where
  word : t.hasToken "_key" = true
  children : t.children = [index, key]
  found : ∃ i, c.index index.token = .ok i ∧ i.isUnique = true ∧ c.keyProperties i = .ok ps
  decoded : CompositeKey.decode index.token key.token ps.length = .ok parts

/-- The comparisons of the properties with the components of a key. -/
def Condition.equations (ps : List Property) (parts : List String) (quote : Option Quote) :
    List Term :=
  List.zipWith equation (ps.map Property.name) (parts.map (valueLeaf quote))

namespace Condition

/-- The comparison of a column with one value is settled. -/
theorem widen_equation (column : String) (quote : Option Quote) (part : String) :
    widen (equation column (valueLeaf quote part)) = equation column (valueLeaf quote part) := by
  have hnarrow : ¬2 < [Term.word column, valueLeaf quote part].length := Nat.lt_irrefl 2
  rw [equation, Term.call, widen_node, if_neg fun h => hnarrow h.2, List.map_cons, List.map_cons,
    List.map_nil, widen_leaf (t := .word column) rfl, widen_leaf (t := valueLeaf quote part) rfl]

/-- A comparison has the role of an equation. -/
theorem role_equation (column : String) (value : Term) :
    (equation column value).role = some .equation := Term.role_call .equation _

/-- What one key stands for comes down to a comparison for each of its components. -/
theorem conjuncts_keyTerm {columns parts : List String} (quote : Option Quote)
    (hlength : parts.length = columns.length) :
    (widen (keyTerm columns [(parts, quote)])).conjuncts =
      List.zipWith equation columns (parts.map (valueLeaf quote)) := by
  have hone : ∀ column part, (widen (equation column (valueLeaf quote part))).conjuncts =
      [equation column (valueLeaf quote part)] := by
    intro column part
    rw [widen_equation, Term.conjuncts_other]
    rw [role_equation]
    decide
  have hall : ∀ {columns parts : List String},
      ((List.zipWith equation columns (parts.map (valueLeaf quote))).map widen).flatMap
        Term.conjuncts = List.zipWith equation columns (parts.map (valueLeaf quote)) := by
    intro columns
    induction columns with
    | nil => exact fun {_} => rfl
    | cons column columns ih =>
      intro parts
      cases parts with
      | nil => rfl
      | cons part parts =>
        rw [List.map_cons, List.zipWith_cons_cons, List.map_cons, List.flatMap_cons, hone, ih]
        rfl
  -- the comparisons of a key with several columns stand below an `and`
  unfold keyTerm
  split
  · next column =>
    obtain ⟨part, rfl⟩ := List.length_eq_one_iff.1 hlength
    exact hone column part
  · have hrole : ∀ ts, (widen (Term.call "and" ts)).role = some .all := by
      intro ts
      have hand : (Term.call "and" ts).role = some .all := Term.role_call .all ts
      rw [role_widen, hand, if_neg fun h => by cases h.1]
    rw [List.map_singleton]
    dsimp only
    rw [Term.conjuncts_all (hrole _), children_widen]
    exact hall

end Condition

variable {c : Collection} {t index key : Term} {ps : List Property} {parts : List String}

/-- What a key term with one key stands for. -/
theorem KeyLookup.keyComparisons_eq (h : KeyLookup c t index key ps parts) :
    Condition.keyComparisons c t =
      .ok (Condition.keyTerm (ps.map Property.name) [(parts, key.quote)]) := by
  obtain ⟨i, hindex, hunique, hps⟩ := h.found
  have hdecoded : CompositeKey.decode index.token key.token (ps.map Property.name).length =
      .ok parts := by
    rw [List.length_map]
    exact h.decoded
  unfold Condition.keyComparisons
  rw [h.children]
  refine bind_eq_ok_iff.2 ⟨i, hindex, ?_⟩
  rw [hunique, if_neg (by decide)]
  exact bind_eq_ok_iff.2 ⟨ps, hps, bind_eq_ok_iff.2 ⟨[(parts, key.quote)],
    mapM_cons_ok_iff.2 ⟨_, [], bind_eq_ok_iff.2 ⟨parts, hdecoded, rfl⟩, rfl, rfl⟩, rfl⟩⟩

/-- A key term with one key gives a comparison for each of the components of the key. -/
theorem KeyLookup.normalForm_eq (h : KeyLookup c t index key ps parts) :
    Condition.normalForm c t = Condition.equations ps parts key.quote := by
  have hrole : t.role = some .key := (Term.hasToken_word_iff (r := .key)).1 h.word
  have hlength : parts.length = (ps.map Property.name).length := by
    rw [List.length_map]
    exact CompositeKey.length_of_decode h.decoded
  rw [Condition.normalForm, Condition.expand_key hrole h.keyComparisons_eq,
    Condition.conjuncts_keyTerm key.quote hlength]
  rfl

namespace Query

variable {text : String} {q : Query}

/-- A query that is a key term with one key has the comparisons in its filter,
and nothing in the other clauses. -/
theorem terms_of_lookup (hwrites : Fragment.Writes text t)
    (h : KeyLookup c t.lifted index key ps parts) (hq : ofString c text = .ok q) :
    q.terms = Clause.filter.gives (Condition.equations ps parts key.quote) := by
  obtain ⟨fragment, hsplit, hparse⟩ := hwrites
  obtain ⟨hbare, hsame⟩ := Bool.and_eq_true_iff.1 h.word
  have howner : (Clause.owner? t.lifted.token).filter (fun _ => !t.lifted.isQuoted) =
      some .filter := by
    rw [Clause.owner?_congr ((Text.sameWord_iff _ _).1 hsame), hbare]
    decide +kernel
  have hshare := contribution_of_split hsplit hq
  rw [fragmentContribution, hparse] at hshare
  have hcontribution : contribution c t = .ok q.terms := hshare
  rw [contribution, howner] at hcontribution
  obtain ⟨normal, hnormal, hterms⟩ := map_eq_ok_iff.1 hcontribution
  obtain ⟨_, _, rfl⟩ := map_eq_ok_iff.1 hnormal
  rw [← hterms, h.normalForm_eq]

/-- What such a query asks for. -/
theorem request_of_lookup (hwrites : Fragment.Writes text t)
    (h : KeyLookup c t.lifted index key ps parts) (hq : ofString c text = .ok q) :
    Request.ofQuery q = ⟨c, Condition.equations ps parts key.quote, .none, none, [], [], [], [],
      false, false⟩ := by
  have hterms := terms_of_lookup hwrites h hq
  obtain ⟨hcollection, hpage⟩ := (reached_ofString hq).paged
  have hnone : q.page = .none := by
    have hids : q.page.terms = [] := List.map_eq_nil_iff.1 (congrFun hterms .page)
    rw [hpage, hids]
    rfl
  unfold Request.ofQuery
  rw [hterms, hcollection, hnone]
  rfl

end Query
end ResourceQuery
