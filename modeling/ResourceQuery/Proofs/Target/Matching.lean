import ResourceQuery.Proofs.Statement.Matching
import ResourceQuery.Proofs.Target.Noninterference

set_option autoImplicit false

/-!
# Targets: plans that match others

The plans of two requests that differ in the letter case of the operators of
their filters, and in what no part of a plan looks at, match: in the parts of a
relational statement, in those of a document query, and in the key condition and
the filter of a key-value request.

In each target only the filter is compared in its own way; the other parts are
the same for both requests.  For a key condition the terms at the same places
are taken.
-/

namespace ResourceQuery

open Build (Matches)
open Term (Recased)

variable {excused : Fault → Prop} {collection : Collection} {filters : List Term} {page : Paging}

/-! ## Relational targets -/

namespace Sql

variable {R : Scope → Scope → Prop} {d d' : Dialog Scope Column}

theorem matches_parts (hd : Dialog.Matching excused R d d') (r : Request)
    (hfilters : List.Forall₂ Recased r.filters filters) :
    Matches excused R Eq (parts d r) (parts d' { r with collection, filters, page }) :=
  parts_congr Matches.congruence hd.resolve hd.predicate_self r (hd.predicates hfilters)

end Sql

/-! ## The document target -/

namespace Document

variable {R : Unit → Unit → Prop} {d d' : Dialog Unit Column}

theorem matches_plan (hd : Dialog.Matching excused R d d') (r : Request)
    (hfilters : List.Forall₂ Recased r.filters filters) :
    Matches excused R Eq (plan d r) (plan d' { r with collection, filters, page }) :=
  plan_congr Matches.congruence hd.resolve hd.predicate_self r (hd.predicates hfilters)

end Document

/-! ## The key-value target -/

namespace KeyValue

variable {R : Names → Names → Prop} {d d' : Dialog Names Column} {c : Collection} {t t' : Term}

/-- A term that fixes a key fixes it in any letter case. -/
theorem fixesKey_of_recased (h : Recased t t') {p : Property} {operators : List Operator}
    (hfixes : fixesKey c p operators t' = true) : fixesKey c p operators t = true := by
  unfold fixesKey at hfixes ⊢
  rw [h.isQuoted_eq, Operator.ofWord?_congr h.lower_token_eq]
  obtain ⟨hword, hmatch⟩ := Bool.and_eq_true_iff.1 hfixes
  refine Bool.and_eq_true_iff.2 ⟨hword, ?_⟩
  split at hmatch
  · next path value hpath hvalue =>
    obtain ⟨v, hv, hrecased⟩ := h.value hvalue
    rw [h.column hpath, hv]
    dsimp only
    rw [hrecased.isLeaf_eq, hrecased.isNull_eq, hrecased.isPattern_eq]
    exact hmatch
  · cases hmatch

/-- Whether a term fixes a key does not depend on the case of its operator. -/
theorem fixesKey_eq_of_recased (h : Recased t t') (p : Property) (operators : List Operator) :
    fixesKey c p operators t = fixesKey c p operators t' :=
  Bool.eq_iff_iff.2 ⟨fixesKey_of_recased h.symm, fixesKey_of_recased h⟩

/-- The terms of a key condition match. -/
theorem matches_keyPart (hd : Dialog.Matching excused R d d') (h : Recased t t') :
    Matches excused R Eq (keyPart d t) (keyPart d' t') := by
  unfold keyPart
  refine .bind (Dialog.Matching.column h) fun path path' hpath => ?_
  subst hpath
  refine .bind (.lookup fun v' hv' => h.value hv') fun v v' hv => ?_
  refine .bind (hd.resolve path) fun found found' hfound => ?_
  subst hfound
  rw [Operator.ofWord?_congr h.lower_token_eq]
  obtain ⟨column, property⟩ := found
  dsimp only
  split
  · refine .bind (.lookup fun bound hbound => ⟨bound, hv.cast hbound, rfl⟩)
      fun bound bound' hbound => ?_
    subst hbound
    exact .bind (.value path bound) fun k k' hk => .pure (by rw [hk])
  · refine .bind (.lookup fun text htext => ⟨text, hv.literal htext, rfl⟩)
      fun text text' htext => ?_
    subst htext
    exact .bind (.value path (.text text)) fun k k' hk => .pure (by rw [hk])

theorem matches_chooseKey (hd : Dialog.Matching excused R d d') {ts ts' : List Term}
    (hts : List.Forall₂ Recased ts ts') (index : Index) (sortKey : Option Property)
    {hash hash' : Term} (hhash : Recased hash hash') (hashAt : Nat) :
    Matches excused R Eq (chooseKey d c ts index sortKey hash hashAt)
      (chooseKey d' c ts' index sortKey hash' hashAt) := by
  unfold chooseKey
  refine .bind (matches_keyPart hd hhash) fun first first' hfirst => ?_
  subst hfirst
  have hrange : Option.Rel (fun x x' => Recased x.1 x'.1 ∧ x.2 = x'.2)
      (sortKey.bind fun p => firstWhere
        (fun i t => i ≠ hashAt && fixesKey c p sortKeyOperators t) ts)
      (sortKey.bind fun p => firstWhere
        (fun i t => i ≠ hashAt && fixesKey c p sortKeyOperators t) ts') := by
    cases sortKey with
    | none => exact .none
    | some p =>
      rw [Option.bind_some, Option.bind_some]
      refine rel_firstWhere hts fun i t t' hrecased => ?_
      rw [fixesKey_eq_of_recased hrecased]
  dsimp only
  generalize (sortKey.bind fun p => firstWhere
    (fun i t => i ≠ hashAt && fixesKey c p sortKeyOperators t) ts) = range,
    (sortKey.bind fun p => firstWhere
      (fun i t => i ≠ hashAt && fixesKey c p sortKeyOperators t) ts') = range' at hrange ⊢
  cases hrange with
  | none => exact .pure rfl
  | @some x x' hx =>
    obtain ⟨range, i⟩ := x
    obtain ⟨range', i'⟩ := x'
    obtain ⟨hrecased, rfl⟩ : Recased range range' ∧ i = i' := hx
    exact .bind (matches_keyPart hd hrecased) fun second second' hsecond => .pure (by rw [hsecond])

theorem matches_keyCondition (hd : Dialog.Matching excused R d d') {ts ts' : List Term}
    (hts : List.Forall₂ Recased ts ts') (indexes : List Index) :
    Matches excused R Eq (keyCondition d c ts indexes) (keyCondition d' c ts' indexes) := by
  induction indexes with
  | nil => exact .pure rfl
  | cons index indexes ih =>
    unfold keyCondition
    refine .bind (.lookup fun ps hps => ⟨ps, hps, rfl⟩) fun properties properties' hproperties => ?_
    subst hproperties
    cases properties with
    | nil => exact ih
    | cons hash others =>
      dsimp only
      have hfirst : Option.Rel (fun x x' => Recased x.1 x'.1 ∧ x.2 = x'.2)
          (firstWhere (fun _ t => fixesKey c hash [.comparison .eq] t) ts)
          (firstWhere (fun _ t => fixesKey c hash [.comparison .eq] t) ts') :=
        rel_firstWhere hts fun _ t t' hrecased => fixesKey_eq_of_recased hrecased hash _
      generalize firstWhere (fun _ t => fixesKey c hash [.comparison .eq] t) ts = found,
        firstWhere (fun _ t => fixesKey c hash [.comparison .eq] t) ts' = found' at hfirst ⊢
      cases hfirst with
      | none => exact ih
      | @some x x' hx =>
        obtain ⟨t, i⟩ := x
        obtain ⟨t', i'⟩ := x'
        obtain ⟨hrecased, rfl⟩ : Recased t t' ∧ i = i' := hx
        exact .bind (matches_chooseKey hd hts index others.head? hrecased i)
          fun key key' hkey => .pure (by rw [hkey])

theorem matches_plan (hd : Dialog.Matching excused R d d') (r : ResourceQuery.Request)
    (hfilters : List.Forall₂ Recased r.filters filters) :
    Matches excused R Eq (plan d r) (plan d' { r with filters, page }) := by
  refine .bind (Dialog.columns_congr Matches.congruence hd.resolve _)
    fun columns columns' hcolumns => ?_
  refine .bind (matches_keyCondition hd hfilters _) fun key key' hkey => ?_
  subst hkey
  refine .bind (hd.predicates (forall₂_remaining hfilters _)) fun ps ps' hps => ?_
  exact .pure (by rw [hcolumns, hps])

end KeyValue
end ResourceQuery
