import ResourceQuery.Proofs.Query.Contribution
import ResourceQuery.Proofs.Term.LetterCase

set_option autoImplicit false

/-!
# Query: the letter case of operators

Filters that differ in the letter case of their operator words alone are taken
in by a query in the same way: both are at fault, or both contribute terms that
differ in that way alone.

The relation is `Term.Recased`.  It is carried through everything that is done
to a filter before it is claimed: expanding keys, widening equations and taking
conjunctions apart.
-/

namespace ResourceQuery

open Store (Loose Over)
open Term (Recased)

/-! ## Filters -/

namespace Term

variable {t t' u : Term}

/-- The arguments of a filter are filters, leaves among them. -/
theorem isFilter_child (h : t.isFilter = true) (hu : u ∈ t.children) : u.isFilter = true := by
  cases hconnective : t.isConnective with
  | true => exact (isFilter_connective hconnective).1 h u hu
  | false =>
    have hchildren : u.children = [] := List.isEmpty_iff.1 ((isFilter_atom hconnective).1 h u hu)
    rw [isFilter_eq, hchildren, List.all_nil, List.all_nil, ite_self]

theorem isFilter_subterm (h : t.isFilter = true) (hu : u ∈ t.subterms) : u.isFilter = true := by
  induction t using Term.induction with
  | node token quote children ih =>
    rcases mem_subterms.1 hu with rfl | ⟨child, hchild, hu⟩
    · exact h
    · exact ih child hchild (isFilter_child h hchild) hu

namespace Recased

theorem role_eq (h : Recased t t') : t.role = t'.role := by
  rw [role, role, h.isQuoted_eq, h.lower_token_eq]

/-- The arguments of an atom are the same. -/
theorem children_eq (h : Recased t t') (hfilter : t.isFilter = true) {r : Role}
    (hrole : t.role = some r) (hatom : r.isConnective = false) : t.children = t'.children := by
  have hleaves := (isFilter_atom ((isConnective_of_role hrole).trans hatom)).1 hfilter
  have hboth := (List.forall₂_and_left t.children t'.children).2 ⟨hleaves, h.children⟩
  rw [← List.forall₂_eq_eq_eq]
  exact hboth.imp fun u u' hu => hu.2.eq_of_isLeaf hu.1

/-- The arguments may give way to as many others. -/
theorem replace {token token' : String} {quote quote' : Option Quote} {ts ts' us us' : List Term}
    (h : Recased (node token quote ts) (node token' quote' ts')) (hlength : us.length = ts.length)
    (hus : List.Forall₂ Recased us us') :
    Recased (node token quote us) (node token' quote' us') := by
  obtain rfl : quote = quote' := h.quote_eq
  have hleaf : us.isEmpty = ts.isEmpty := by
    rw [Bool.eq_iff_iff, List.isEmpty_iff_length_eq_zero, List.isEmpty_iff_length_eq_zero, hlength]
  refine of_children ?_ hus
  rw [hleaf]
  rcases h.token_cases with htoken | hoperator
  · exact .inl htoken
  · exact .inr ⟨hoperator, h.lower_token_eq⟩

theorem subterms (h : Recased t t') : List.Forall₂ Recased t.subterms t'.subterms := by
  induction t using Term.induction generalizing t' with
  | node token quote ts ih =>
    obtain ⟨token', quote', ts'⟩ := t'
    rw [subterms_eq, subterms_eq]
    exact .cons h (List.rel_flatMap (h.below @ih) fun _ _ hbelow => hbelow)

theorem conjuncts (h : Recased t t') : List.Forall₂ Recased t.conjuncts t'.conjuncts := by
  induction t using Term.induction generalizing t' with
  | node token quote ts ih =>
    obtain ⟨token', quote', ts'⟩ := t'
    by_cases hrole : (node token quote ts).role = some .all
    · rw [conjuncts_all hrole, conjuncts_all (h.role_eq.symm.trans hrole)]
      exact List.rel_flatMap (h.below @ih) fun _ _ hbelow => hbelow
    · rw [conjuncts_other hrole, conjuncts_other (h.role_eq ▸ hrole)]
      exact .cons h .nil

end Recased
end Term

namespace Condition

variable {c : Collection} {t t' : Term}

theorem keyComparisons_congr (h : t.children = t'.children) :
    keyComparisons c t = keyComparisons c t' := by
  rw [keyComparisons, keyComparisons, h]

/-- The keys come to the same. -/
theorem mapM_keyTerms_eq (h : Recased t t') (hfilter : t.isFilter = true) :
    (keyTerms t).mapM (keyComparisons c) = (keyTerms t').mapM (keyComparisons c) := by
  -- the index and the keys are leaves, so key terms have the same arguments
  have hsame : ∀ u ∈ t.subterms, ∀ {u'}, Recased u u' → u.hasToken "_key" = true →
      keyComparisons c u = keyComparisons c u' := by
    intro u hu u' hrecased hkey
    have hrole : u.role = some .key := (Term.hasToken_word_iff (r := .key)).1 hkey
    exact keyComparisons_congr (hrecased.children_eq (Term.isFilter_subterm hfilter hu) hrole rfl)
  have hboth := (List.forall₂_and_left t.subterms t'.subterms).2 ⟨@hsame, h.subterms⟩
  unfold keyTerms
  generalize t.subterms = us, t'.subterms = us' at hboth
  induction hboth with
  | nil => rfl
  | @cons u u' us us' hu _ ih =>
    rw [List.filter_cons, List.filter_cons, ← hu.2.hasToken_eq]
    cases hkey : u.hasToken "_key" with
    | true => rw [if_pos rfl, if_pos rfl, List.mapM_cons, List.mapM_cons, hu.1 hu.2 hkey, ih]
    | false => exact ih

/-- Expanding keys keeps the relation. -/
theorem recased_expand (h : Recased t t') (hfilter : t.isFilter = true) :
    Recased (expand c t) (expand c t') := by
  induction t using Term.induction generalizing t' with
  | node token quote ts ih =>
    obtain ⟨token', quote', ts'⟩ := t'
    by_cases hrole : (Term.node token quote ts).role = some .key
    · have hrole' := h.role_eq.symm.trans hrole
      have hsame := keyComparisons_congr (c := c) (h.children_eq hfilter hrole rfl)
      rw [expand, Term.fold_eq, Term.fold_eq, if_pos hrole, if_pos hrole', hsame]
      cases keyComparisons c (.node token' quote' ts') with
      | ok e => exact .refl e
      | error _ => exact h
    · have hrole' : (Term.node token' quote' ts').role ≠ some .key := h.role_eq ▸ hrole
      rw [expand_node hrole, expand_node hrole']
      refine h.replace (List.length_map _) ?_
      rw [List.forall₂_map_left_iff, List.forall₂_map_right_iff]
      exact h.below fun u hu u' hrecased => ih u hu hrecased (Term.isFilter_child hfilter hu)

/-- Widening equations keeps the relation. -/
theorem recased_widen (h : Recased t t') : Recased (widen t) (widen t') := by
  induction t using Term.induction generalizing t' with
  | node token quote ts ih =>
    obtain ⟨token', quote', ts'⟩ := t'
    have hbelow : List.Forall₂ Recased (ts.map widen) (ts'.map widen) := by
      rw [List.forall₂_map_left_iff, List.forall₂_map_right_iff]
      exact h.below @ih
    have hlength : ts.length = ts'.length := h.children.length_eq
    rw [widen_node, widen_node, ← h.role_eq, ← hlength]
    split
    · obtain rfl : quote = quote' := h.quote_eq
      exact .of_children (.inl rfl) hbelow
    · exact h.replace (List.length_map _) hbelow

/-- Filters that differ in the case of their operators are both at fault, or
give terms that differ in that way. -/
theorem contribution_recased (h : Recased t t') (hfilter : t.isFilter = true) :
    (∃ fault, contribution c t = .error fault ∧ contribution c t' = .error fault) ∨
      ∃ ts ts', contribution c t = .ok ts ∧ contribution c t' = .ok ts' ∧
        List.Forall₂ Recased ts ts' := by
  unfold contribution
  rw [mapM_keyTerms_eq h hfilter]
  cases (keyTerms t').mapM (keyComparisons c) with
  | error fault => exact .inl ⟨fault, rfl, rfl⟩
  | ok _ => exact .inr ⟨_, _, rfl, rfl, (recased_widen (recased_expand h hfilter)).conjuncts⟩

end Condition

/-! ## Queries -/

namespace Term

variable {t t' : Term}

theorem setsParameter_eq_false (h : t.hasToken "eq" = false) : t.setsParameter = false := by
  unfold setsParameter
  split
  · rw [h, Bool.false_and, Bool.false_and, Bool.false_and]
  · rfl

theorem lifted_eq_self (h : t.setsParameter = false) : t.lifted = t := by
  unfold lifted
  split
  · rw [h, if_neg Bool.false_ne_true]
  · rfl

/-- A parameter is lifted to the same term, and any other term stays as it is. -/
theorem Recased.lifted (h : Recased t t') (hfilter : t.isFilter = true) :
    t.lifted = t'.lifted ∨ t.lifted = t ∧ t'.lifted = t' := by
  cases heq : t.hasToken "eq" with
  | false =>
    have heq' : t'.hasToken "eq" = false := (h.hasToken_eq "eq").symm.trans heq
    exact .inr ⟨lifted_eq_self (setsParameter_eq_false heq),
      lifted_eq_self (setsParameter_eq_false heq')⟩
  | true =>
    have hchildren := h.children_eq hfilter ((hasToken_word_iff (r := .equation)).1 heq) rfl
    have hsame : t.setsParameter = t'.setsParameter := by
      rw [setsParameter, setsParameter, ← hchildren, h.hasToken_eq]
    cases hsets : t.setsParameter with
    | false => exact .inr ⟨lifted_eq_self hsets, lifted_eq_self (hsame.symm.trans hsets)⟩
    | true =>
      refine .inl ?_
      rw [Term.lifted, Term.lifted, ← hchildren, ← hsame]
      rcases hlist : t.children with _ | ⟨key, values⟩
      · rw [setsParameter, hlist] at hsets
        cases hsets
      · dsimp only
        rw [hsets, if_pos rfl, if_pos rfl]

end Term

namespace Query

variable {c : Collection} {q : Query} {t t' : Term}

/-- Filters that differ in the case of their operators are both at fault, or
contribute the same apart from the terms of the filter, which differ in that
way. -/
theorem contribution_recased (h : Recased t t') (hfilter : t.isFilter = true)
    (hword : Clause.owner? t.token = some .filter) :
    (∃ fault fault', contribution c t = .error fault ∧ contribution c t' = .error fault') ∨
      ∃ ts ts', contribution c t = .ok ts ∧ contribution c t' = .ok ts' ∧
        List.Forall₂ Recased (ts .filter) (ts' .filter) ∧
        ∀ kind, kind ≠ .filter → ts kind = ts' kind := by
  rcases h.lifted hfilter with hsame | ⟨hself, hself'⟩
  · have heq : contribution c t = contribution c t' := by
      rw [contribution, contribution, hsame]
    rw [heq]
    cases contribution c t' with
    | error fault => exact .inl ⟨fault, fault, rfl, rfl⟩
    | ok ts =>
      refine .inr ⟨ts, ts, rfl, rfl, ?_, fun _ _ => rfl⟩
      exact List.forall₂_same.2 fun u _ => .refl u
  · have hword' : Clause.owner? t'.token = some .filter :=
      (Clause.owner?_congr h.lower_token_eq).symm.trans hword
    cases hquoted : t.isQuoted with
    | true =>
      have hquoted' : t'.isQuoted = true := h.isQuoted_eq.symm.trans hquoted
      rw [contribution, contribution, hself, hself', hword, hword', hquoted, hquoted']
      exact .inl ⟨_, _, rfl, rfl⟩
    | false =>
      have hquoted' : t'.isQuoted = false := h.isQuoted_eq.symm.trans hquoted
      have hshare : contribution c t = filterShare c t := by
        rw [contribution, hself, hword, hquoted]
        rfl
      have hshare' : contribution c t' = filterShare c t' := by
        rw [contribution, hself', hword', hquoted']
        rfl
      rw [hshare, hshare', filterShare, filterShare]
      rcases Condition.contribution_recased (c := c) h hfilter with
        ⟨fault, hfault, hfault'⟩ | ⟨ts, ts', hts, hts', hrecased⟩
      · rw [hfault, hfault']
        exact .inl ⟨fault, fault, rfl, rfl⟩
      · rw [hts, hts']
        refine .inr ⟨_, _, rfl, rfl, hrecased, fun kind hkind => ?_⟩
        rw [Clause.gives, Clause.gives, if_neg hkind, if_neg hkind]

/-- A term that has been built beside the words of the query comes out as it contributes. -/
theorem terms_addTerm (hq : q.Sound) {s : Store} {id : WordId} (hs : q.store.Over s)
    (hid : Loose q.store.size s id) {ts : Clause → List Term}
    (h : contribution q.collection (s.read id) = .ok ts) (kind : Clause) :
    ({ q with store := s }.addTerm id).2.terms kind = q.terms kind ++ ts kind := by
  have hcomes := (comes_addTerm (q := { q with store := s }) hs hid).of_store
  obtain ⟨ids, hclause, hread⟩ := hcomes.gained h kind
  have hext := ((claimed_addTerm (q := { q with store := s }) hs hid).edited.over hs).extension
  rw [terms_append hq hext hclause, hread]

/-- A filter is taken in whatever the case of its operators, and changes the
query in the same way up to that case. -/
theorem addTerm_recased (hq : Reached c q) {s s' : Store} {id id' : WordId} (hs : q.store.Over s)
    (hs' : q.store.Over s') (hid : Loose q.store.size s id) (hid' : Loose q.store.size s' id')
    (h : Recased (s.read id) (s'.read id')) (hfilter : (s.read id).isFilter = true)
    (hword : Clause.owner? (s.read id).token = some .filter) :
    (({ q with store := s }.addTerm id).1 = .ok () ↔
      ({ q with store := s' }.addTerm id').1 = .ok ()) ∧
    (({ q with store := s }.addTerm id).1 = .ok () →
      List.Forall₂ Recased (({ q with store := s }.addTerm id).2.terms .filter)
        (({ q with store := s' }.addTerm id').2.terms .filter) ∧
      ∀ kind, kind ≠ .filter → ({ q with store := s }.addTerm id).2.terms kind =
        ({ q with store := s' }.addTerm id').2.terms kind) := by
  have hcomes := (comes_addTerm (q := { q with store := s }) hs hid).outcome
  have hcomes' := (comes_addTerm (q := { q with store := s' }) hs' hid').outcome
  rcases contribution_recased (c := q.collection) h hfilter hword with
    ⟨fault, fault', hfault, hfault'⟩ | ⟨ts, ts', hts, hts', hrecased, hsame⟩
  · rw [hfault] at hcomes
    rw [hfault'] at hcomes'
    rw [hcomes, hcomes']
    refine ⟨⟨fun hok => ?_, fun hok => ?_⟩, fun hok => ?_⟩ <;> cases hok
  · have hterms := terms_addTerm hq.sound hs hid hts
    have hterms' := terms_addTerm hq.sound hs' hid' hts'
    rw [hts] at hcomes
    rw [hts'] at hcomes'
    refine ⟨⟨fun _ => hcomes', fun _ => hcomes⟩, fun _ => ⟨?_, fun kind hkind => ?_⟩⟩
    · rw [hterms, hterms']
      exact List.rel_append (List.forall₂_same.2 fun u _ => .refl u) hrecased
    · rw [hterms, hterms', hsame kind hkind]

end Query
end ResourceQuery
