import ResourceQuery.Proofs.Outcome
import ResourceQuery.Proofs.Query.Meaning

set_option autoImplicit false

/-!
# Query: the normal form of a filter

The normal form as a function of terms: keys give way to the comparisons that
they stand for, `eq` with several values to `in`, and a conjunction at the root
to its conjuncts. Each of the three leaves the truth of a filter as it is, and
the terms of the normal form are normal.

All three steps are functions by recursion over the term, so each fact is an
induction with the roles of words for cases; the store comes in only later.
-/

namespace ResourceQuery

open Term (forall_subterms)

/-! ## Keys -/

theorem CompositeKey.length_of_decode {index key : String} {arity : Nat} {parts : List String}
    (h : CompositeKey.decode index key arity = .ok parts) : parts.length = arity := by
  unfold CompositeKey.decode at h
  split at h
  · cases h
  · split at h
    · cases h
    · next hlength =>
      split at h
      · cases h
      · cases h
        rw [List.length_map]
        omega

namespace Condition

/-- A component is the same value, whichever way its quotes are found. -/
theorem valueLeaf_eq_component (key : Term) (part : String) :
    valueLeaf key.quote part = key.component part := by
  unfold valueLeaf Term.component Term.isQuoted
  cases key.quote with
  | some q => rfl
  | none => cases Text.sameWord part "null" <;> rfl

variable (ρ : Valuation) (c : Collection)

theorem holds_equation (column : String) (value : Term) :
    ρ.holds c (equation column value) = ρ.equal (.word column) value := by
  have hrole : (equation column value).role = some .equation := Term.role_call .equation _
  rw [ρ.holds_atom c (Term.isConnective_of_role hrole), Valuation.atom, hrole]
  exact Bool.or_false _

theorem holds_in (column : Term) (values : List Term) :
    ρ.holds c (.call "in" (column :: values)) = values.any (ρ.equal column) := by
  have hrole : (Term.call "in" (column :: values)).role = some .membership :=
    Term.role_call .membership _
  rw [ρ.holds_atom c (Term.isConnective_of_role hrole), Valuation.atom, hrole]
  rfl

theorem holds_and (ts : List Term) : ρ.holds c (.call "and" ts) = ts.all (ρ.holds c) :=
  ρ.holds_all c (Term.role_call .all ts)

theorem holds_or (ts : List Term) : ρ.holds c (.call "or" ts) = ts.any (ρ.holds c) :=
  ρ.holds_any c (Term.role_call .any ts)

/-- The components have the columns as their values. -/
def agrees (columns : List String) : List String × Option Quote → Bool
  | (parts, quote) => (columns.zip parts).all fun (column, part) =>
      ρ.equal (.word column) (valueLeaf quote part)

/-- The rows with the given keys are those that one of the keys agrees with. -/
theorem holds_keyTerm {columns : List String} {keys : List (List String × Option Quote)}
    (hkeys : ∀ k ∈ keys, k.1.length = columns.length) :
    ρ.holds c (keyTerm columns keys) = keys.any (agrees ρ columns) := by
  unfold keyTerm
  split
  · next column =>
    have hvalues : (keys.flatMap fun (parts, quote) => parts.map (valueLeaf quote)).any
        (ρ.equal (.word column)) = keys.any (agrees ρ [column]) := by
      rw [List.any_flatMap, Bool.eq_iff_iff, List.any_eq_true, List.any_eq_true]
      refine exists_congr fun k => and_congr_right fun hk => ?_
      obtain ⟨part, hpart⟩ := List.length_eq_one_iff.1 (hkeys k hk)
      simp [agrees, hpart]
    rw [← hvalues]
    split
    · next value hvalue => rw [hvalue, holds_equation, List.any_cons, List.any_nil, Bool.or_false]
    · rw [holds_in]
  · have hbranch : ∀ k : List String × Option Quote,
        ρ.holds c (.call "and" (List.zipWith equation columns (k.1.map (valueLeaf k.2)))) =
          agrees ρ columns k := by
      intro k
      rw [holds_and, List.zipWith_map_right, ← List.map_uncurry_zip_eq_zipWith, List.all_map,
        agrees]
      refine congrArg (List.all _) (funext fun x => ?_)
      exact holds_equation ρ c x.1 _
    have hvalues : (keys.map fun (parts, quote) => Term.call "and"
        (List.zipWith equation columns (parts.map (valueLeaf quote)))).any (ρ.holds c) =
          keys.any (agrees ρ columns) := by
      rw [List.any_map]
      exact congrArg (List.any keys) (funext hbranch)
    rw [← hvalues]
    split
    · next branch hone => rw [hone, List.any_cons, List.any_nil, Bool.or_false]
    · rw [holds_or]

/-! ## Key terms -/

/-- A key term that can be resolved names a unique index and keys with a
component for each of its columns. -/
theorem keyComparisons_ok {c : Collection} {t e : Term} (h : keyComparisons c t = .ok e) :
    ∃ index keys columns decoded, t.children = index :: keys ∧
      c.index index.token >>= c.keyProperties = .ok columns ∧
      keys.mapM (fun k => do
        let parts ← CompositeKey.decode index.token k.token columns.length
        return (parts, k.quote)) = .ok decoded ∧
      e = keyTerm (columns.map Property.name) decoded := by
  unfold keyComparisons at h
  split at h
  · next index key keys hchildren =>
    obtain ⟨found, hfound, h⟩ := bind_eq_ok_iff.1 h
    split at h
    · cases h
    · obtain ⟨columns, hcolumns, h⟩ := bind_eq_ok_iff.1 h
      obtain ⟨decoded, hdecoded, h⟩ := bind_eq_ok_iff.1 h
      rw [List.length_map] at hdecoded
      refine ⟨index, key :: keys, columns, decoded, hchildren, ?_, hdecoded, ?_⟩
      · exact bind_eq_ok_iff.2 ⟨found, hfound, hcolumns⟩
      · exact (pure_eq_ok_iff.1 h).symm
  · cases h

/-- A key term says the same as its comparisons. -/
theorem holds_keyComparisons {t e : Term} (hrole : t.role = some .key)
    (h : keyComparisons c t = .ok e) : ρ.holds c e = ρ.holds c t := by
  obtain ⟨index, keys, columns, decoded, hchildren, hcolumns, hdecoded, rfl⟩ :=
    keyComparisons_ok h
  have hlength : ∀ k ∈ decoded, k.1.length = (columns.map Property.name).length := by
    refine forall_mem_of_mapM (fun k d hd => ?_) hdecoded
    obtain ⟨parts, hparts, hd⟩ := bind_eq_ok_iff.1 hd
    rw [← pure_eq_ok_iff.1 hd, CompositeKey.length_of_decode hparts, List.length_map]
  have hmatches : keys.any (ρ.matchesKey index.token columns) =
      decoded.any (agrees ρ (columns.map Property.name)) := by
    refine any_eq_of_mapM (fun k d hd => ?_) hdecoded
    obtain ⟨parts, hparts, hd⟩ := bind_eq_ok_iff.1 hd
    rw [← pure_eq_ok_iff.1 hd, Valuation.matchesKey, hparts, agrees, List.zip_map_left,
      List.all_map]
    refine congrArg (List.all _) (funext fun x => ?_)
    exact congrArg (ρ.equal _) (valueLeaf_eq_component k x.2).symm
  rw [holds_keyTerm ρ c hlength, ← hmatches, ρ.holds_atom c (Term.isConnective_of_role hrole),
    Valuation.atom, hrole, hchildren]
  simp only [Valuation.key, hcolumns]

/-- What keys stand for is built with connectives from comparisons of leaves. -/
theorem keyTerm_cases {p : Term → Prop}
    (hatom : ∀ (r : Role) ts, r.isConnective = false → r ≠ .key →
      (∀ v ∈ ts, v.isLeaf = true) → p (.call r.word ts))
    (hconnective : ∀ (r : Role) ts, r.isConnective = true → (∀ t ∈ ts, p t) → p (.call r.word ts))
    (columns : List String) (keys : List (List String × Option Quote)) :
    p (keyTerm columns keys) := by
  have hequation : ∀ column value quote, p (equation column (valueLeaf quote value)) := by
    intro column value quote
    refine hatom .equation _ rfl (by decide) fun v hv => ?_
    simp only [List.mem_cons, List.not_mem_nil, or_false] at hv
    rcases hv with rfl | rfl <;> rfl
  unfold keyTerm
  split
  · have hvalues : ∀ v ∈ keys.flatMap fun (parts, quote) => parts.map (valueLeaf quote),
        ∃ value quote, v = valueLeaf quote value := by
      intro v hv
      obtain ⟨k, _, hv⟩ := List.mem_flatMap.1 hv
      obtain ⟨part, _, rfl⟩ := List.mem_map.1 hv
      exact ⟨part, k.2, rfl⟩
    split
    · next value hvalue =>
      obtain ⟨text, quote, rfl⟩ := hvalues value (by rw [hvalue]; exact List.mem_cons_self)
      exact hequation _ _ _
    · refine hatom .membership _ rfl (by decide) fun v hv => ?_
      rcases List.mem_cons.1 hv with rfl | hv
      · rfl
      · obtain ⟨text, quote, rfl⟩ := hvalues v hv
        rfl
  · have hbranches : ∀ t ∈ keys.map fun (parts, quote) => Term.call "and"
        (List.zipWith equation columns (parts.map (valueLeaf quote))), p t := by
      intro t ht
      obtain ⟨k, _, rfl⟩ := List.mem_map.1 ht
      refine hconnective .all _ rfl fun u hu => ?_
      rw [List.zipWith_map_right, ← List.map_uncurry_zip_eq_zipWith] at hu
      obtain ⟨x, _, rfl⟩ := List.mem_map.1 hu
      exact hequation _ _ _
    split
    · next branch hbranch => exact hbranches branch (by rw [hbranch]; exact List.mem_cons_self)
    · exact hconnective .any _ rfl hbranches

theorem isFilter_keyComparisons {t e : Term} (h : keyComparisons c t = .ok e) :
    e.isFilter = true := by
  obtain ⟨_, _, columns, decoded, _, _, _, rfl⟩ := keyComparisons_ok h
  refine keyTerm_cases (p := fun e => e.isFilter = true) ?_ ?_ _ _
  · intro r ts hr _ hts
    have hcall := Term.isConnective_of_role (Term.role_call r ts)
    exact (Term.isFilter_atom (hcall.trans hr)).2 hts
  · intro r ts hr hts
    have hcall := Term.isConnective_of_role (Term.role_call r ts)
    exact (Term.isFilter_connective (hcall.trans hr)).2 hts

/-! ## The normal form -/

/-- The term with comparisons in the place of its key terms. -/
def expand : Term → Term := Term.fold fun t below =>
  if t.role = some .key then (keyComparisons c t).toOption.getD t
  else .node t.token t.quote below

/-- The term with `in` for every `eq` that has several values. -/
def widen : Term → Term := Term.fold fun t below =>
  .node (if t.role = some .equation ∧ 2 < t.children.length then "in" else t.token) t.quote below

/-- The terms that a term contributes to a filter. -/
def normalForm (t : Term) : List Term := (widen (expand c t)).conjuncts

/-- Every key term can be resolved. -/
def KeysResolve (t : Term) : Prop :=
  ∀ u ∈ t.subterms, u.role = some .key → ∃ e, keyComparisons c u = .ok e

variable {c}

theorem expand_key {t e : Term} (hrole : t.role = some .key) (h : keyComparisons c t = .ok e) :
    expand c t = e := by
  rw [expand, Term.fold_eq, if_pos hrole, h]
  rfl

theorem expand_node {token : String} {quote : Option Quote} {ts : List Term}
    (hrole : (Term.node token quote ts).role ≠ some .key) :
    expand c (.node token quote ts) = .node token quote (ts.map (expand c)) := by
  rw [expand, Term.fold_eq, if_neg hrole]
  rfl

/-- A leaf is no key term; if it spells one, it cannot be resolved. -/
theorem expand_leaf {t : Term} (h : t.isLeaf = true) : expand c t = t := by
  obtain ⟨token, quote, ts⟩ := t
  obtain rfl : ts = [] := List.isEmpty_iff.1 h
  by_cases hrole : (Term.node token quote []).role = some .key
  · rw [expand, Term.fold_eq, if_pos hrole]
    rfl
  · rw [expand_node hrole, List.map_nil]

theorem widen_node (token : String) (quote : Option Quote) (ts : List Term) :
    widen (.node token quote ts) =
      .node (if (Term.node token quote ts).role = some .equation ∧ 2 < ts.length then "in" else token)
        quote (ts.map widen) := by
  rw [widen, Term.fold_eq]
  rfl

/-- A term keeps its role, except that a wide equation becomes a membership. -/
theorem role_widen (t : Term) :
    (widen t).role =
      if t.role = some .equation ∧ 2 < t.children.length then some .membership else t.role := by
  obtain ⟨token, quote, ts⟩ := t
  rw [widen_node, Term.children_node]
  split
  · next hwide =>
    obtain rfl : quote = none := Term.quote_of_role hwide.1
    exact Term.role_call .membership (ts.map widen)
  · rfl

theorem children_widen (t : Term) : (widen t).children = t.children.map widen := by
  obtain ⟨token, quote, ts⟩ := t
  rw [widen_node]
  rfl

theorem widen_leaf {t : Term} (h : t.isLeaf = true) : widen t = t := by
  obtain ⟨token, quote, ts⟩ := t
  obtain rfl : ts = [] := List.isEmpty_iff.1 h
  rw [widen_node, if_neg (fun hwide => Nat.not_lt_zero _ hwide.2), List.map_nil]

theorem map_eq_self {f : Term → Term} {ts : List Term} (h : ∀ u ∈ ts, f u = u) :
    ts.map f = ts := by
  rw [List.map_congr_left h, List.map_id']

/-- The keys of a filter stand for filters that say the same. -/
theorem expand_spec {t : Term} (hfilter : t.isFilter = true) (hkeys : KeysResolve c t) :
    (expand c t).isFilter = true ∧ ∀ ρ : Valuation, ρ.holds c (expand c t) = ρ.holds c t := by
  induction t using Term.induction with
  | node token quote ts ih =>
    by_cases hkey : (Term.node token quote ts).role = some .key
    · obtain ⟨e, he⟩ := hkeys _ (Term.mem_subterms_self _) hkey
      rw [expand_key hkey he]
      exact ⟨isFilter_keyComparisons c he, fun ρ => holds_keyComparisons ρ c hkey he⟩
    · rw [expand_node hkey]
      cases hconnective : (Term.node token quote ts).isConnective with
      | true =>
        have hts := (Term.isFilter_connective hconnective).1 hfilter
        have hbelow : ∀ u ∈ ts, KeysResolve c u := fun u hu v hv =>
          hkeys v (Term.mem_subterms_of_child hu hv)
        have hconnective' : (Term.node token quote (ts.map (expand c))).isConnective = true :=
          hconnective
        refine ⟨(Term.isFilter_connective hconnective').2 fun e he => ?_, fun ρ => ?_⟩
        · obtain ⟨u, hu, rfl⟩ := List.mem_map.1 he
          exact (ih u hu (hts u hu) (hbelow u hu)).1
        · refine ρ.holds_congr c hconnective' ?_
          rw [List.map_map]
          exact List.map_congr_left fun u hu => (ih u hu (hts u hu) (hbelow u hu)).2 ρ
      | false =>
        have hts := (Term.isFilter_atom hconnective).1 hfilter
        have hleaves : ∀ u ∈ ts, expand c u = u := fun u hu => expand_leaf (hts u hu)
        rw [map_eq_self hleaves]
        exact ⟨hfilter, fun _ => rfl⟩

/-- A wide equation says the same with either word. -/
theorem atom_in {ρ : Valuation} {token : String} {quote : Option Quote} {ts : List Term}
    (hrole : (Term.node token quote ts).role = some .equation) (hwide : 2 < ts.length) :
    ρ.holds c (.node "in" quote ts) = ρ.holds c (.node token quote ts) := by
  obtain rfl : quote = none := Term.quote_of_role hrole
  have hin : (Term.node "in" none ts).role = some .membership := Term.role_call .membership ts
  rw [ρ.holds_atom c (Term.isConnective_of_role hin),
    ρ.holds_atom c (Term.isConnective_of_role hrole), Valuation.atom, Valuation.atom, hin, hrole]
  match ts, hwide with
  | column :: value :: values, _ => rfl

/-- Widening does not change what a filter says. -/
theorem holds_widen {t : Term} (hfilter : t.isFilter = true) (ρ : Valuation) :
    ρ.holds c (widen t) = ρ.holds c t := by
  induction t using Term.induction with
  | node token quote ts ih =>
    rw [widen_node]
    cases hconnective : (Term.node token quote ts).isConnective with
    | true =>
      have hts := (Term.isFilter_connective hconnective).1 hfilter
      rw [if_neg ?_]
      · refine ρ.holds_congr c hconnective ?_
        rw [List.map_map]
        exact List.map_congr_left fun u hu => ih u hu (hts u hu)
      · rintro ⟨hrole, _⟩
        rw [Term.isConnective_of_role hrole] at hconnective
        cases hconnective
    | false =>
      have hts := (Term.isFilter_atom hconnective).1 hfilter
      have hleaves : ∀ u ∈ ts, widen u = u := fun u hu => widen_leaf (hts u hu)
      rw [map_eq_self hleaves]
      split
      · next hwide => exact atom_in hwide.1 hwide.2
      · rfl

/-- The terms of the normal form hold together just when the filter holds. -/
theorem holds_normalForm {t : Term} (hfilter : t.isFilter = true) (hkeys : KeysResolve c t)
    (ρ : Valuation) : ρ.holds c t = (normalForm c t).all (ρ.holds c) := by
  obtain ⟨hexpanded, hholds⟩ := expand_spec hfilter hkeys
  rw [normalForm, ← ρ.holds_conjuncts c, holds_widen hexpanded, hholds]

/-! ## Normal terms -/

/-- No conjunction at the root, no `eq` with several values and no key term anywhere. -/
structure Normal (t : Term) : Prop where
  root : t.hasToken "and" = false
  equations : ∀ u ∈ t.subterms, u.hasToken "eq" = true → u.children.length ≤ 2
  keys : ∀ u ∈ t.subterms, u.hasToken "_key" = true → u.children = []

theorem widen_equations (t : Term) :
    ∀ u ∈ (widen t).subterms, u.role = some .equation → u.children.length ≤ 2 := by
  induction t using Term.induction with
  | node token quote ts ih =>
    refine forall_subterms.2 ⟨fun hrole => ?_, fun child hchild => ?_⟩
    · rw [role_widen] at hrole
      rw [children_widen, List.length_map]
      split at hrole
      · cases hrole
      · next hnarrow => exact Nat.le_of_not_lt fun hwide => hnarrow ⟨hrole, hwide⟩
    · rw [children_widen] at hchild
      obtain ⟨u, hu, rfl⟩ := List.mem_map.1 hchild
      exact ih u hu

/-- No term under this one, except a leaf, is a key term. -/
def Keyless (t : Term) : Prop := ∀ u ∈ t.subterms, u.role = some .key → u.children = []

theorem keyless_node {t : Term} (hroot : t.role ≠ some .key)
    (h : ∀ u ∈ t.children, Keyless u) : Keyless t :=
  forall_subterms.2 ⟨fun hrole => absurd hrole hroot, h⟩

theorem keyless_call {r : Role} (hr : r ≠ .key) {ts : List Term} (h : ∀ u ∈ ts, Keyless u) :
    Keyless (.call r.word ts) := by
  refine keyless_node (fun hrole => hr ?_) h
  rw [Term.role_call] at hrole
  exact Option.some.inj hrole

theorem keyless_leaf {t : Term} (h : t.isLeaf = true) : Keyless t := by
  have hchildren : t.children = [] := List.isEmpty_iff.1 h
  refine forall_subterms.2 ⟨fun _ => hchildren, fun child hchild => ?_⟩
  rw [hchildren] at hchild
  cases hchild

theorem keyless_keyComparisons {t e : Term} (h : keyComparisons c t = .ok e) : Keyless e := by
  obtain ⟨_, _, columns, decoded, _, _, _, rfl⟩ := keyComparisons_ok h
  refine keyTerm_cases (p := Keyless) ?_ ?_ _ _
  · intro r ts _ hr hts
    exact keyless_call hr fun u hu => keyless_leaf (hts u hu)
  · intro r ts hr hts
    refine keyless_call ?_ hts
    rintro rfl
    cases hr

/-- Behind expansion there are no key terms left. -/
theorem keyless_expand {t : Term} (hkeys : KeysResolve c t) : Keyless (expand c t) := by
  induction t using Term.induction with
  | node token quote ts ih =>
    by_cases hkey : (Term.node token quote ts).role = some .key
    · obtain ⟨e, he⟩ := hkeys _ (Term.mem_subterms_self _) hkey
      rw [expand_key hkey he]
      exact keyless_keyComparisons he
    · rw [expand_node hkey]
      refine keyless_node hkey fun e he => ?_
      obtain ⟨u, hu, rfl⟩ := List.mem_map.1 he
      exact ih u hu fun v hv => hkeys v (Term.mem_subterms_of_child hu hv)

theorem keyless_widen {t : Term} (h : Keyless t) : Keyless (widen t) := by
  induction t using Term.induction with
  | node token quote ts ih =>
    obtain ⟨hroot, hbelow⟩ := forall_subterms.1 h
    refine forall_subterms.2 ⟨fun hrole => ?_, fun child hchild => ?_⟩
    · rw [role_widen] at hrole
      rw [children_widen, List.map_eq_nil_iff]
      split at hrole
      · cases hrole
      · exact hroot hrole
    · rw [children_widen] at hchild
      obtain ⟨u, hu, rfl⟩ := List.mem_map.1 hchild
      exact ih u hu (hbelow u hu)

/-- The terms of the normal form are normal. -/
theorem normal_of_mem_normalForm {t : Term} (hkeys : KeysResolve c t) :
    ∀ u ∈ normalForm c t, Normal u := by
  intro u hu
  obtain ⟨hsub, hroot⟩ := Term.conjuncts_spec _ u hu
  refine ⟨?_, fun v hv hrole => ?_, fun v hv hrole => ?_⟩
  · rw [Bool.eq_false_iff]
    exact fun htoken => hroot (Term.hasToken_word_iff (r := .all).1 htoken)
  · exact widen_equations _ v (Term.subterms_trans hsub hv)
      (Term.hasToken_word_iff (r := .equation).1 hrole)
  · exact keyless_widen (keyless_expand hkeys) v (Term.subterms_trans hsub hv)
      (Term.hasToken_word_iff (r := .key).1 hrole)

/-! ## Order -/

/-- Each conjunct contributes its own terms, and in the order of the conjuncts. -/
theorem normalForm_eq_flatMap (t : Term) :
    normalForm c t = t.conjuncts.flatMap (normalForm c) := by
  induction t using Term.induction with
  | node token quote ts ih =>
    by_cases hall : (Term.node token quote ts).role = some .all
    · have hkey : (Term.node token quote ts).role ≠ some .key := by
        rw [hall]
        decide
      have hexpand : (Term.node token quote (ts.map (expand c))).role = some .all := hall
      have hwiden : (widen (.node token quote (ts.map (expand c)))).role = some .all := by
        rw [role_widen, if_neg, hexpand]
        rintro ⟨hrole, _⟩
        cases hexpand.symm.trans hrole
      rw [normalForm, expand_node hkey, Term.conjuncts_all hwiden, children_widen,
        Term.conjuncts_all hall, Term.children_node, Term.children_node, List.flatMap_map,
        List.flatMap_map, List.flatMap_assoc, List.flatMap_def, List.flatMap_def]
      exact congrArg List.flatten (List.map_congr_left ih)
    · rw [Term.conjuncts_other hall, List.flatMap_singleton]

end Condition
end ResourceQuery
