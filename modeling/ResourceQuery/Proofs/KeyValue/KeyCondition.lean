import Mathlib.Data.List.Nodup
import Mathlib.Data.List.Perm.Basic
import ResourceQuery.Proofs.Catalog
import ResourceQuery.Proofs.KeyValue.Filters

set_option autoImplicit false

/-!
# Key-value requests: the choice of a key condition

A term that fixes a key is compiled for the key condition as it would be for the
filter.  Which index and which terms are taken is said by a rule of its own,
`KeyChoice.Chosen`; what is left is the filter, in its order, and nothing is
lost or taken twice.

The search by positions and the rule are proved to agree first
(`firstWhere_eq_some_iff`, `keyCondition_ok`).  That the terms are divided
without loss is then a fact about positions alone: those taken are different,
and what is left is all the others.
-/

namespace ResourceQuery.Build

variable {σ α β : Type}

theorem lookup_ok_bind (a : α) (k : α → Build σ β) : (lookup (.ok a) >>= k) = k a := rfl

end ResourceQuery.Build

namespace ResourceQuery.KeyValue

/-! ## Terms that fix a key -/

/-- What is known of a term that fixes a key. -/
theorem fixesKey_cases {c : Collection} {property : Property} {operators : List Operator} {t : Term}
    (h : fixesKey c property operators t = true) :
    ∃ op path value, Operator.ofWord? t.token = some op ∧ op ∈ operators ∧
      t.column = .ok path ∧ t.value = .ok value ∧
      value.isLeaf = true ∧ value.isNull = false ∧ value.isPattern = false := by
  unfold fixesKey at h
  rw [Bool.and_eq_true, Bool.and_eq_true] at h
  obtain ⟨⟨_, hword⟩, hmatch⟩ := h
  obtain ⟨op, hop, hmem⟩ := (Option.any_eq_true _ _).1 hword
  cases hpath : t.column with
  | error _ =>
    rw [hpath] at hmatch
    cases hmatch
  | ok path =>
    cases hvalue : t.value with
    | error _ =>
      rw [hpath, hvalue] at hmatch
      cases hmatch
    | ok value =>
      rw [hpath, hvalue] at hmatch
      simp only [Bool.and_eq_true, Bool.not_eq_true'] at hmatch
      obtain ⟨⟨⟨_, hleaf⟩, hnull⟩, hpattern⟩ := hmatch
      exact ⟨op, path, value, hop, List.contains_iff_mem.1 hmem, rfl, rfl, hleaf, hnull, hpattern⟩

/-- A comparison with a value that is neither null nor a pattern. -/
theorem keyPart_comparison {root : Collection} {t : Term} {op : Comparison} {path : String}
    {value : Term} (hop : Operator.ofWord? t.token = some (.comparison op))
    (hpath : t.column = .ok path) (hvalue : t.value = .ok value) (hnull : value.isNull = false)
    (hpattern : value.isPattern = false) :
    keyPart (dialog root) t = (dialog root).comparison t op := by
  unfold keyPart Dialog.comparison
  rw [hpath, hvalue, hop]
  simp only [Build.lookup_ok_bind, hnull, hpattern, Bool.false_eq_true, if_false, false_and]

/-- A test for the beginning of one text. -/
theorem keyPart_startsWith {root : Collection} {t : Term} {path : String} {value : Term}
    (hop : Operator.ofWord? t.token = some (.text .startsWith)) (hpath : t.column = .ok path)
    (hvalue : t.value = .ok value) :
    keyPart (dialog root) t = (dialog root).textTest t .startsWith := by
  have hvalues : t.values = .ok [value] := by
    unfold Term.values
    rw [Term.tail_of_value hvalue]
  have htest : ∀ (c : Column) (text : String), (dialog root).test .startsWith c path text =
      (do let marker ← Build.bind path (.text text)
          return .text .startsWith false c marker) := fun _ _ => rfl
  have hrefused : (dialog root).refused .startsWith = none := rfl
  unfold keyPart Dialog.textTest
  rw [hpath, hvalue, hvalues, hop, hrefused]
  simp only [Build.lookup_ok_bind, htest, List.mapM_cons, List.mapM_nil, bind_assoc, pure_bind,
    reduceCtorEq, if_false, Predicate.anyOf]

/-- A term that fixes a key is compiled as the filter would compile it. -/
theorem keyPart_eq_predicate {root c : Collection} {property : Property}
    {operators : List Operator} (hoperators : ∀ op ∈ operators, op ∈ sortKeyOperators) {t : Term}
    (h : fixesKey c property operators t = true) :
    keyPart (dialog root) t = (dialog root).predicate t := by
  obtain ⟨op, path, value, hop, hmem, hpath, hvalue, _, hnull, hpattern⟩ := fixesKey_cases h
  obtain ⟨token, quote, children⟩ := t
  have hcomparison : ∀ op', op = .comparison op' → keyPart (dialog root) (.node token quote children) =
      (dialog root).predicate (.node token quote children) := by
    rintro op' rfl
    rw [keyPart_comparison hop hpath hvalue hnull hpattern, Dialog.predicate.eq_def]
    dsimp only
    rw [show Operator.ofWord? token = _ from hop]
    rfl
  have hcases := hoperators op hmem
  simp only [sortKeyOperators, List.mem_cons, List.not_mem_nil, or_false] at hcases
  rcases hcases with hcase | hcase | hcase | hcase | hcase | rfl
  · exact hcomparison _ hcase
  · exact hcomparison _ hcase
  · exact hcomparison _ hcase
  · exact hcomparison _ hcase
  · exact hcomparison _ hcase
  · rw [keyPart_startsWith hop hpath hvalue, Dialog.predicate.eq_def]
    dsimp only
    rw [show Operator.ofWord? token = _ from hop]
    rfl

/-! ## The first term that passes a test -/

/-- The term at the position is the first one that passes the test. -/
structure FirstAt (test : Nat → Term → Bool) (terms : List Term) (i : Nat) (t : Term) : Prop where
  term_eq : terms[i]? = some t
  passes : test i t = true
  first : ∀ j u, j < i → terms[j]? = some u → test j u = false

/-- The search finds the first term that passes the test, with its position. -/
theorem firstWhere_eq_some_iff {test : Nat → Term → Bool} {terms : List Term} {i : Nat} {t : Term} :
    firstWhere test terms = some (t, i) ↔ FirstAt test terms i t := by
  unfold firstWhere
  rw [List.find?_eq_some_iff_getElem]
  simp only [List.getElem_zipIdx, List.length_zipIdx, Nat.zero_add, Prod.mk.injEq]
  constructor
  · rintro ⟨hpasses, k, hk, ⟨hterm, rfl⟩, hfirst⟩
    refine ⟨List.getElem?_eq_some_iff.2 ⟨hk, hterm⟩, hpasses, fun j u hj hu => ?_⟩
    obtain ⟨_, rfl⟩ := List.getElem?_eq_some_iff.1 hu
    simpa using hfirst j hj
  · rintro ⟨hterm, hpasses, hfirst⟩
    obtain ⟨hlt, hterm⟩ := List.getElem?_eq_some_iff.1 hterm
    refine ⟨hpasses, i, hlt, ⟨hterm, rfl⟩, fun j hj => ?_⟩
    have hlt' : j < terms.length := Nat.lt_trans hj hlt
    rw [hfirst j _ hj (List.getElem?_eq_getElem hlt')]
    rfl

theorem firstWhere_eq_none {test : Term → Bool} {terms : List Term}
    (h : firstWhere (fun _ t => test t) terms = none) : ∀ t ∈ terms, test t = false := by
  intro t ht
  obtain ⟨i, hi, rfl⟩ := List.getElem_of_mem ht
  have hmem : (terms[i], i) ∈ terms.zipIdx := List.mk_mem_zipIdx_iff_getElem?.2
    (List.getElem?_eq_getElem hi)
  simpa using List.find?_eq_none.1 h _ hmem

/-! ## The rule -/

/-- Some term of the filter fixes the first column of the index. -/
def Hashed (c : Collection) (filters : List Term) (index : Index) : Prop :=
  ∃ hash others, c.keyProperties index = .ok (hash :: others) ∧
    ∃ t ∈ filters, fixesKey c hash [.comparison .eq] t = true

/-- An index for a key condition, and the positions of the terms that it is made of. -/
structure KeyChoice where
  index : Index
  hashAt : Nat
  rangeAt : Option Nat
  deriving DecidableEq, Repr

/-- The choice is made by the rule: the first index whose first column is fixed,
the first term that fixes it, and the first other term that compares the second
column, if there is one. -/
structure KeyChoice.Chosen (k : KeyChoice) (c : Collection) (filters : List Term) : Prop where
  index : ∃ before after, candidates c = before ++ k.index :: after ∧
    ∀ i ∈ before, ¬Hashed c filters i
  terms : ∃ hash others t, c.keyProperties k.index = .ok (hash :: others) ∧
    FirstAt (fun _ t => fixesKey c hash [.comparison .eq] t) filters k.hashAt t ∧
    ∀ j, k.rangeAt = some j ↔ ∃ sort u, others.head? = some sort ∧
      FirstAt (fun i t => i ≠ k.hashAt && fixesKey c sort sortKeyOperators t) filters j u

/-- An index is chosen by the rule, or there is none to choose. -/
def Decided (c : Collection) (filters : List Term) (choice : Option KeyChoice) : Prop :=
  (choice = none ∧ ∀ i ∈ candidates c, ¬Hashed c filters i) ∨
    ∃ k, choice = some k ∧ k.Chosen c filters

/-- The positions of the terms of a key condition. -/
def positions (choice : Option KeyChoice) : List Nat :=
  (choice.map fun k => k.hashAt :: k.rangeAt.toList).getD []

/-- The terms of a key condition. -/
def keyTerms (filters : List Term) (choice : Option KeyChoice) : List Term :=
  (positions choice).filterMap fun i => filters[i]?

/-- The terms that are left to the filter. -/
def otherTerms (filters : List Term) (choice : Option KeyChoice) : List Term :=
  remaining filters (positions choice)

theorem Decided.isSome_iff {c : Collection} {filters : List Term} {choice : Option KeyChoice}
    (h : Decided c filters choice) :
    choice.isSome = true ↔ ∃ index ∈ candidates c, Hashed c filters index := by
  rcases h with ⟨rfl, hnone⟩ | ⟨k, rfl, hk⟩
  · refine ⟨fun h => absurd h Bool.false_ne_true, fun hsome => ?_⟩
    obtain ⟨index, hindex, hhashed⟩ := hsome
    exact absurd hhashed (hnone index hindex)
  · refine ⟨fun _ => ?_, fun _ => rfl⟩
    obtain ⟨before, after, hcandidates, _⟩ := hk.index
    obtain ⟨hash, others, t, hproperties, hfirst, _⟩ := hk.terms
    refine ⟨k.index, ?_, hash, others, hproperties, t, List.mem_of_getElem? hfirst.term_eq,
      hfirst.passes⟩
    rw [hcandidates]
    exact List.mem_append_right before List.mem_cons_self

/-- The positions of a key condition are different ones. -/
theorem Decided.nodup_positions {c : Collection} {filters : List Term} {choice : Option KeyChoice}
    (h : Decided c filters choice) : (positions choice).Nodup := by
  rcases h with ⟨rfl, _⟩ | ⟨k, rfl, hk⟩
  · exact .nil
  · obtain ⟨_, _, _, _, _, hrange⟩ := hk.terms
    have hpositions : positions (some k) = k.hashAt :: k.rangeAt.toList := rfl
    rw [hpositions]
    cases hat : k.rangeAt with
    | none => exact List.pairwise_singleton _ _
    | some j =>
      obtain ⟨_, _, _, hsecond⟩ := (hrange j).1 hat
      have hpasses := hsecond.passes
      rw [Bool.and_eq_true] at hpasses
      have hne : j ≠ k.hashAt := of_decide_eq_true hpasses.1
      simpa using hne.symm

/-- Terms at different positions, and all that is left, are all terms. -/
theorem perm_filterMap_remaining {filters : List Term} {at_ : List Nat} (hnodup : at_.Nodup) :
    ((at_.filterMap fun i => filters[i]?) ++ remaining filters at_).Perm filters := by
  have hpairs : (at_.filterMap fun i => filters[i]?) =
      (at_.filterMap fun i => (filters[i]?).map fun t => (t, i)).map Prod.fst := by
    rw [List.map_filterMap]
    simp only [Option.map_map, Function.comp_def, Option.map_id']
  have hpairsNodup : (at_.filterMap fun i => (filters[i]?).map fun t => (t, i)).Nodup := by
    refine List.Nodup.filterMap (fun i j x hi hj => ?_) hnodup
    obtain ⟨_, _, rfl⟩ := Option.map_eq_some_iff.1 (Option.mem_def.1 hi)
    obtain ⟨_, _, heq⟩ := Option.map_eq_some_iff.1 (Option.mem_def.1 hj)
    exact (Prod.mk.inj heq).2.symm
  have hzipNodup : filters.zipIdx.Nodup := by
    refine List.Nodup.of_map Prod.snd ?_
    rw [List.zipIdx_map_snd]
    exact List.nodup_range'
  have htaken : (at_.filterMap fun i => (filters[i]?).map fun t => (t, i)).Perm
      (filters.zipIdx.filter fun x => at_.contains x.2) := by
    refine (List.perm_ext_iff_of_nodup hpairsNodup (hzipNodup.filter _)).2 fun x => ?_
    obtain ⟨t, i⟩ := x
    rw [List.mem_filterMap, List.mem_filter, List.mk_mem_zipIdx_iff_getElem?, List.contains_iff_mem]
    constructor
    · rintro ⟨j, hj, hx⟩
      obtain ⟨u, hu, heq⟩ := Option.map_eq_some_iff.1 hx
      obtain ⟨rfl, rfl⟩ := Prod.mk.inj heq
      exact ⟨hu, hj⟩
    · rintro ⟨ht, hi⟩
      exact ⟨i, hi, by rw [ht, Option.map_some]⟩
  have hsplit := List.filter_append_perm (fun x : Term × Nat => at_.contains x.2) filters.zipIdx
  have hfirsts : filters.zipIdx.map Prod.fst = filters := List.zipIdx_map_fst 0 filters
  have hwhole := ((htaken.append_right _).trans hsplit).map Prod.fst
  rw [hfirsts, List.map_append, ← hpairs] at hwhole
  exact hwhole

/-- What is left keeps its order. -/
theorem sublist_remaining (filters : List Term) (at_ : List Nat) :
    (remaining filters at_).Sublist filters := by
  have hsub := (List.filter_sublist (l := filters.zipIdx) (p := fun x => !at_.contains x.2)).map
    Prod.fst
  rw [List.zipIdx_map_fst] at hsub
  exact hsub

/-- The terms of the key condition and those left to the filter are all terms. -/
theorem Decided.perm {c : Collection} {filters : List Term} {choice : Option KeyChoice}
    (h : Decided c filters choice) :
    (keyTerms filters choice ++ otherTerms filters choice).Perm filters :=
  perm_filterMap_remaining h.nodup_positions

/-! ## Runs -/

section Runs

variable {root c : Collection} {filters : List Term} {p p' : Progress Names}

theorem mem_sortKeyOperators_of_eq : ∀ op ∈ [Operator.comparison .eq], op ∈ sortKeyOperators := by
  intro op hop
  rw [List.mem_singleton.1 hop]
  decide

/-- The condition of an index is compiled from the two terms of the rule. -/
theorem chooseKey_ok {index : Index} {sortKey : Option Property} {hash : Property} {t : Term}
    {hashAt : Nat} {key : KeyPlan} (hfixes : fixesKey c hash [.comparison .eq] t = true)
    (hterm : filters[hashAt]? = some t)
    (h : chooseKey (dialog root) c filters index sortKey t hashAt p = .ok (key, p')) :
    ∃ rangeAt, (∀ j, rangeAt = some j ↔ ∃ sort u, sortKey = some sort ∧
        FirstAt (fun i t => i ≠ hashAt && fixesKey c sort sortKeyOperators t) filters j u) ∧
      key.index = index ∧ key.sortKey = sortKey ∧
      key.consumed = positions (some ⟨index, hashAt, rangeAt⟩) ∧
      (dialog root).predicates (keyTerms filters (some ⟨index, hashAt, rangeAt⟩)) p =
        .ok (key.condition, p') := by
  unfold chooseKey at h
  obtain ⟨first, p₁, hfirst, h⟩ := Build.bind_ok_iff.1 h
  rw [keyPart_eq_predicate mem_sortKeyOperators_of_eq hfixes] at hfirst
  -- the first term of the condition is fixed; there is a second one if a filter bounds the sort key
  cases hrange : sortKey.bind fun property =>
      firstWhere (fun i t => i ≠ hashAt && fixesKey c property sortKeyOperators t) filters with
  | none =>
    rw [hrange] at h
    obtain ⟨rfl, rfl⟩ := Build.pure_ok_iff.1 h
    refine ⟨none, fun j => ⟨fun hj => (Option.some_ne_none j hj.symm).elim, ?_⟩, rfl, rfl, rfl, ?_⟩
    · rintro ⟨sort, u, rfl, hu⟩
      rw [Option.bind_some, firstWhere_eq_some_iff.2 hu] at hrange
      cases hrange
    · have hterms : keyTerms filters (some ⟨index, hashAt, none⟩) = [t] := by
        simp [keyTerms, positions, hterm]
      rw [hterms]
      exact Dialog.predicates_ok_iff.2 (.cons hfirst .nil)
  | some found =>
    obtain ⟨range, rangeAt⟩ := found
    rw [hrange] at h
    obtain ⟨second, hsecond, rfl⟩ := Build.bind_pure_ok_iff.1 h
    obtain ⟨sort, rfl, hfound⟩ := Option.bind_eq_some_iff.1 hrange
    have hfirstAt := firstWhere_eq_some_iff.1 hfound
    have hpasses := hfirstAt.passes
    rw [Bool.and_eq_true] at hpasses
    rw [keyPart_eq_predicate (fun _ h => h) hpasses.2] at hsecond
    refine ⟨some rangeAt, fun j => ⟨?_, ?_⟩, rfl, rfl, rfl, ?_⟩
    · rintro ⟨rfl⟩
      exact ⟨sort, range, rfl, hfirstAt⟩
    · rintro ⟨_, u, ⟨rfl⟩, hu⟩
      have heq := hfound.symm.trans (firstWhere_eq_some_iff.2 hu)
      rw [(Prod.mk.inj (Option.some.inj heq)).2]
    · have hterms : keyTerms filters (some ⟨index, hashAt, some rangeAt⟩) = [t, range] := by
        simp [keyTerms, positions, hterm, hfirstAt.term_eq]
      rw [hterms]
      exact Dialog.predicates_ok_iff.2 (.cons hfirst (.cons hsecond .nil))

/-- The first index whose first column is fixed gives the key condition. -/
theorem keyCondition_ok {indexes : List Index} : ∀ {p : Progress Names} {key : Option KeyPlan},
    keyCondition (dialog root) c filters indexes p = .ok (key, p') →
    (key = none ∧ p' = p ∧ ∀ i ∈ indexes, ¬Hashed c filters i) ∨
    ∃ plan before index after hash others t hashAt, key = some plan ∧
      indexes = before ++ index :: after ∧ (∀ i ∈ before, ¬Hashed c filters i) ∧
      c.keyProperties index = .ok (hash :: others) ∧
      FirstAt (fun _ t => fixesKey c hash [.comparison .eq] t) filters hashAt t ∧
      chooseKey (dialog root) c filters index others.head? t hashAt p = .ok (plan, p') := by
  induction indexes with
  | nil =>
    intro p key h
    obtain ⟨rfl, rfl⟩ := Build.pure_ok_iff.1 h
    exact .inl ⟨rfl, rfl, fun _ hi => absurd hi List.not_mem_nil⟩
  | cons index indexes ih =>
    intro p key h
    unfold keyCondition at h
    obtain ⟨properties, hproperties, h⟩ := Build.lookup_bind_ok_iff.1 h
    cases properties with
    | nil => exact absurd rfl (Collection.keyProperties_ne_nil hproperties)
    | cons hash others =>
      dsimp only at h
      cases hfound : firstWhere (fun _ t => fixesKey c hash [.comparison .eq] t) filters with
      | some found =>
        obtain ⟨t, hashAt⟩ := found
        rw [hfound] at h
        obtain ⟨plan, hplan, rfl⟩ := Build.bind_pure_ok_iff.1 h
        exact .inr ⟨plan, [], index, indexes, hash, others, t, hashAt, rfl, rfl,
          fun _ hi => absurd hi List.not_mem_nil, hproperties, firstWhere_eq_some_iff.1 hfound, hplan⟩
      | none =>
        rw [hfound] at h
        have hnot : ¬Hashed c filters index := by
          rintro ⟨hash', others', hproperties', t, ht, hfixes⟩
          obtain ⟨rfl, rfl⟩ := List.cons.inj (Except.ok.inj (hproperties.symm.trans hproperties'))
          rw [firstWhere_eq_none hfound t ht] at hfixes
          cases hfixes
        have hcons : ∀ {l : List Index}, (∀ i ∈ l, ¬Hashed c filters i) →
            ∀ i ∈ index :: l, ¬Hashed c filters i := by
          intro l hl i hi
          rcases List.mem_cons.1 hi with rfl | hi
          · exact hnot
          · exact hl i hi
        rcases ih h with ⟨rfl, rfl, hnone⟩ |
          ⟨plan, before, index', after, hash', others', t, hashAt, rfl, rfl, hbefore, hrest⟩
        · exact .inl ⟨rfl, rfl, hcons hnone⟩
        · exact .inr ⟨plan, index :: before, index', after, hash', others', t, hashAt, rfl, rfl,
            hcons hbefore, hrest⟩

end Runs

/-! ## Requests -/

/-- The predicates of the key condition; there are none without one. -/
def Plan.conditions (pl : Plan) : List (Predicate Column) :=
  (pl.key.map KeyPlan.condition).getD []

/-- How a plan comes about: the selected columns, then the terms of the key
condition, then the others. -/
structure Plan.Course (pl : Plan) (r : ResourceQuery.Request) (choice : Option KeyChoice)
    (p₁ p₂ p₃ : Progress Names) : Prop where
  decided : Decided r.collection r.filters choice
  selected : ∃ columns, (dialog r.collection).columns r.includes ⟨[], []⟩ = .ok (columns, p₁) ∧
    pl.projection = columns.map fun column => column.2.1
  keyed : (dialog r.collection).predicates (keyTerms r.filters choice) p₁ =
    .ok (pl.conditions, p₂)
  filtered : (dialog r.collection).predicates (otherTerms r.filters choice) p₂ =
    .ok (pl.filters, p₃)
  index : pl.key.map KeyPlan.index = choice.map KeyChoice.index

/-- Every plan comes about in this way. -/
theorem plan_course {r : ResourceQuery.Request} {pl : Plan} {p : Progress Names}
    (h : plan (dialog r.collection) r ⟨[], []⟩ = .ok (pl, p)) :
    ∃ choice p₁ p₂, pl.Course r choice p₁ p₂ p := by
  unfold plan at h
  obtain ⟨columns, p₁, hcolumns, h⟩ := Build.bind_ok_iff.1 h
  obtain ⟨key, p₂, hkey, h⟩ := Build.bind_ok_iff.1 h
  obtain ⟨filters, hfilters, rfl⟩ := Build.bind_pure_ok_iff.1 h
  rcases keyCondition_ok hkey with ⟨rfl, rfl, hnone⟩ |
    ⟨plan, before, index, after, hash, others, t, hashAt, rfl, hcandidates, hbefore, hproperties,
      hfirst, hchoose⟩
  · exact ⟨none, p₂, p₂, .inl ⟨rfl, hnone⟩, ⟨columns, hcolumns, rfl⟩,
      Dialog.predicates_ok_iff.2 .nil, hfilters, rfl⟩
  · obtain ⟨rangeAt, hrange, hindex, _, hconsumed, hkeyed⟩ :=
      chooseKey_ok hfirst.passes hfirst.term_eq hchoose
    refine ⟨some ⟨index, hashAt, rangeAt⟩, p₁, p₂,
      .inr ⟨_, rfl, ⟨before, after, hcandidates, hbefore⟩,
        hash, others, t, hproperties, hfirst, hrange⟩, ⟨columns, hcolumns, rfl⟩, hkeyed, ?_,
      congrArg some hindex⟩
    rw [Option.map_some, Option.getD_some, hconsumed] at hfilters
    exact hfilters

section Course

variable {pl : Plan} {r : ResourceQuery.Request} {choice : Option KeyChoice}
  {p₁ p₂ p₃ : Progress Names}

theorem Plan.Course.isSome_key (h : pl.Course r choice p₁ p₂ p₃) :
    pl.key.isSome = choice.isSome := by
  have hmaps := congrArg Option.isSome h.index
  rwa [Option.isSome_map, Option.isSome_map] at hmaps

/-- There is a key condition where there is a choice. -/
theorem Plan.Course.isEmpty_conditions (h : pl.Course r choice p₁ p₂ p₃) :
    pl.conditions.isEmpty = choice.isNone := by
  have hkeyed := Dialog.predicates_ok_iff.1 h.keyed
  generalize pl.conditions = conditions at hkeyed ⊢
  rcases h.decided with ⟨rfl, _⟩ | ⟨k, rfl, hk⟩
  · cases hkeyed
    rfl
  · obtain ⟨_, _, t, _, hfirst, _⟩ := hk.terms
    have hterms : keyTerms r.filters (some k) =
        t :: k.rangeAt.toList.filterMap fun i => r.filters[i]? := by
      change (k.hashAt :: k.rangeAt.toList).filterMap _ = _
      rw [List.filterMap_cons_some hfirst.term_eq]
    rw [hterms] at hkeyed
    cases hkeyed
    rfl

end Course

theorem condition?_conditions (pl : Plan) :
    (pl.key.bind fun key => condition? key.condition) = condition? pl.conditions := by
  unfold Plan.conditions
  cases pl.key with
  | none => rfl
  | some key => rfl

/-- What a request is made of. -/
theorem compile_ok {config : Config} {r : ResourceQuery.Request} {req : Request}
    (h : compile config r = .ok req) :
    ∃ pl p, plan (dialog r.collection) r ⟨[], []⟩ = .ok (pl, p) ∧
      req.operation = (if pl.key.isSome then .query else .scan) ∧
      req.index = (pl.key.bind fun key =>
        if key.index.kind = .primary then none else some key.index.name) ∧
      req.keyCondition = condition? pl.conditions ∧
      req.filter = condition? pl.filters ∧
      req.projection = expression? ", " (pl.projection.map columnPieces) ∧
      req.names = nameMap p.scope ∧ req.attributeValues = valueMap p.values ∧
      req.values = p.values := by
  unfold compile at h
  obtain ⟨_, _, h⟩ := bind_eq_ok_iff.1 h
  obtain ⟨⟨pl, p⟩, hplan, h⟩ := bind_eq_ok_iff.1 h
  obtain ⟨_, _, h⟩ := bind_eq_ok_iff.1 h
  obtain ⟨_, _, h⟩ := bind_eq_ok_iff.1 h
  obtain rfl := Except.ok.inj h
  exact ⟨pl, p, hplan, rfl, rfl, condition?_conditions pl, rfl, rfl, rfl, rfl, rfl⟩

/-- The text of one predicate. -/
def conditionText (q : Predicate Column) : String := Piece.textAll spelling (q.pieces phrasing)

theorem condition?_eq (qs : List (Predicate Column)) : condition? qs =
    if qs.isEmpty then none else some (" AND ".intercalate (qs.map conditionText)) := by
  unfold condition? expression?
  rw [FilterText.textAll_join, Predicate.piecesAll_eq_map, List.isEmpty_map, List.map_map]
  rfl

/-- A request whose key condition is the last and the first term of its filter,
by the second index of its collection. -/
def openInvoices : ResourceQuery.Request where
  collection := ⟨"invoices", none,
    [⟨"id", none, .integer, false⟩, ⟨"customer", some "cust", .string, false⟩,
      ⟨"due", none, .integer, false⟩, ⟨"note", none, .string, true⟩],
    [⟨"byId", .primary, ["id"]⟩, ⟨"byCustomer", .secondary, ["customer", "due"]⟩], []⟩
  filters := [.call "gt" [.word "due", .word "3"],
    .call "or" [.call "n" [.word "note"], .call "in" [.word "id", .word "1", .word "2"]],
    .call "ne" [.word "customer", .word "b"], .call "eq" [.word "customer", .word "a"]]
  page := .none
  after := none
  sorts := []
  groups := []
  includes := [.word "note", .word "due"]
  computed := []
  distinct := false
  rowCount := false

/-- What compiling one condition leaves: its text, the names met so far and the
map of their stand-ins, the map of the markers, and the bound values. -/
structure Emission where
  text : String
  scope : Names
  names : List (String × String)
  attributeValues : List (String × Value)
  values : Bindings
  deriving DecidableEq, Repr

/-- What is left of a predicate and the progress made with it. -/
def emission (q : Predicate Column × Progress Names) : Emission :=
  ⟨conditionText q.1, q.2.scope, nameMap q.2.scope, valueMap q.2.values, q.2.values⟩

/-- From any state, a term that fixes a key fails in the key condition as it
would in the filter, or it leaves the same text, the same names and the same
values. -/
theorem keyPart_writes_as_filter (root c : Collection) (property : Property) (t : Term)
    (h : fixesKey c property sortKeyOperators t = true) (state : Progress Names) :
    ((keyPart (dialog root) t).run state).map emission =
      (((dialog root).predicate t).run state).map emission := by
  rw [keyPart_eq_predicate (fun _ hop => hop) h]

theorem keyPart_writes_as_filter_due :
    fixesKey openInvoices.collection ⟨"due", none, .integer, false⟩ sortKeyOperators
      (.call "GT" [.word "due", .word "3"]) = true ∧
    (((keyPart (dialog openInvoices.collection) (.call "GT" [.word "due", .word "3"])).run
        ⟨[("customer", .text "a")], ["cust"]⟩).map emission).toOption =
      some ⟨"#name2 > :val2", ["cust", "due"], [("#name1", "cust"), ("#name2", "due")],
        [(":val1", .text "a"), (":val2", .int 3)], [("customer", .text "a"), ("due", .int 3)]⟩ ∧
    ((keyPart (dialog openInvoices.collection) (.call "GT" [.word "due", .word "3"])).run
        ⟨[("customer", .text "a")], ["cust"]⟩).map emission =
      (((dialog openInvoices.collection).predicate (.call "GT" [.word "due", .word "3"])).run
        ⟨[("customer", .text "a")], ["cust"]⟩).map emission := by
  have hfixes : fixesKey openInvoices.collection ⟨"due", none, .integer, false⟩ sortKeyOperators
      (.call "GT" [.word "due", .word "3"]) = true := by decide +kernel
  exact ⟨hfixes, by decide +kernel, keyPart_writes_as_filter _ _ _ _ hfixes _⟩

end ResourceQuery.KeyValue
