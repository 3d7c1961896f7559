import ResourceQuery.Proofs.Query.Fitting
import ResourceQuery.Proofs.Query.Paging

set_option autoImplicit false

/-!
# Query: what a term contributes

What a term gives to the clauses of a query, said on terms alone.  Adding a term
comes out that way in every query: with the same fault, or with the same terms
behind those that are there. So the terms of a query are those that its
fragments contribute, one after the other.

The function on terms is the specification; `Comes` relates a claim in a store
to it.  Each clause is compared by itself, and `comes_addTerm` puts them
together with what is lifted before.
-/

namespace ResourceQuery

open Store (Loose Over)

/-! ## Filters -/

namespace Condition

variable {c : Collection} {s : Store} {id : WordId}

/-- The terms that a term gives to the filter, unless one of its keys is at fault. -/
def contribution (c : Collection) (t : Term) : Except Fault (List Term) :=
  (fun _ => normalForm c t) <$> (keyTerms t).mapM (keyComparisons c)

/-- A claim on the filter gives what the term contributes. -/
theorem read_claim (hs : s.WellFormed) (hid : id.index < s.size) :
    (fun ids => ids.map (claim c s id).2.read) <$> (claim c s id).1 =
      contribution c (s.read id) := by
  obtain ⟨P, rfl, hP, hnodup⟩ := hs.exists_plot hid
  have houtcome := (resolves_resolveKeys (c := c) hs hP hnodup).outcome
  rw [hP.read_eq hnodup, contribution]
  rcases hresolve : resolveKeys c P.id s with ⟨fault | root, s'⟩
  · rw [hresolve] at houtcome
    rw [claim, hresolve]
    cases hkeys : (keyTerms P.term).mapM (keyComparisons c) with
    | error fault' =>
      rw [hkeys] at houtcome
      cases houtcome
      rfl
    | ok es =>
      rw [hkeys] at houtcome
      cases houtcome
  · rw [hresolve] at houtcome
    obtain ⟨es, hkeys, _⟩ := map_eq_ok_iff.1 houtcome.symm
    obtain ⟨ids, s'', hclaim⟩ : ∃ ids s'', claim c s P.id = (.ok ids, s'') := by
      rw [claim, hresolve]
      exact ⟨_, _, rfl⟩
    rw [hkeys, hclaim]
    exact congrArg Except.ok (claim_ok hs hP hclaim).2

end Condition

/-! ## Clauses -/

/-- The terms for one clause, and none for the others. -/
def Clause.gives (kind : Clause) (ts : List Term) (other : Clause) : List Term :=
  if other = kind then ts else []

namespace Query

/-- What a term gives as a filter. -/
def filterShare (c : Collection) (t : Term) : Except Fault (Clause → List Term) :=
  Clause.filter.gives <$> Condition.contribution c t

/-- What a term gives as a grouping. -/
def groupShare (t : Term) : Except Fault (Clause → List Term) :=
  (fun _ => Clause.group.gives [t]) <$> ColumnList.checkGroup t

/-- What the parts of a selection term give that the selection does not keep. -/
def handedShare (c : Collection) : Option Term → Option Term → Except Fault (Clause → List Term)
  | some grouping, _ => groupShare grouping
  | none, some filter => filterShare c filter
  | none, none => .ok fun _ => []

/-- What a term gives when the clause claims it. -/
def share (c : Collection) (kind : Clause) (t : Term) : Except Fault (Clause → List Term) :=
  match kind with
  | .filter => filterShare c t
  | .page => (fun _ => Clause.page.gives [t]) <$> Paging.setting t
  | .order => (fun _ => Clause.order.gives [t]) <$> ColumnList.checkOrder t
  | .group => groupShare t
  | .select => do
    let parts ← Selection.parts t
    let handed ← handedShare c parts.grouping parts.filter
    return fun kind => Clause.select.gives parts.terms kind ++ handed kind

/-- What a term contributes to the clauses of a query. -/
def contribution (c : Collection) (t : Term) : Except Fault (Clause → List Term) :=
  match (Clause.owner? t.lifted.token).filter fun _ => !t.lifted.isQuoted with
  | some kind => share c kind t.lifted
  | none => .error (.grammar (.unknownTerm t.lifted.render))

/-- What a fragment contributes to the clauses of a query. -/
def fragmentContribution (c : Collection) (fragment : String) :
    Except Fault (Clause → List Term) :=
  Fragment.parse fragment >>= contribution c

/-! ## Claims -/

/-- A claim comes out as the given share: with its fault, or with words behind
those of each clause at which the store has the terms of the share. -/
structure Comes (q : Query) (result : Except Fault Unit × Query)
    (given : Except Fault (Clause → List Term)) : Prop where
  outcome : result.1 = (fun _ => ()) <$> given
  gained : ∀ {ts}, given = .ok ts → ∀ kind, ∃ ids,
    result.2.clause kind = q.clause kind ++ ids ∧ ids.map result.2.store.read = ts kind

variable {s₀ : Store} {q q' : Query} {id : WordId}

theorem Comes.error {fault : Fault} : Comes q (.error fault, q') (.error fault) :=
  ⟨rfl, fun h => by cases h⟩

/-- The clause has the words in addition, and the store has the terms there. -/
theorem Comes.one {kind : Clause} (ids : List WordId) {ts : List Term}
    (hclause : ∀ other, q'.clause other = q.clause other ++ kind.only ids other)
    (hread : ids.map q'.store.read = ts) : Comes q (.ok (), q') (.ok (kind.gives ts)) := by
  refine ⟨rfl, fun {ts'} h other => ⟨kind.only ids other, hclause other, ?_⟩⟩
  cases h
  unfold Clause.only Clause.gives
  split
  · exact hread
  · rfl

theorem Comes.nothing (q : Query) : Comes q (.ok (), q) (.ok fun _ => []) := by
  refine ⟨rfl, fun hts kind => ⟨[], (List.append_nil _).symm, ?_⟩⟩
  cases hts
  rfl

/-- The filter takes in what the term contributes to it. -/
theorem comes_filter (hs : q.store.WellFormed) (hid : id.index < q.store.size) :
    Comes q (q.claimFilter id) (filterShare q.collection (q.store.read id)) := by
  have hread := Condition.read_claim (c := q.collection) hs hid
  unfold claimFilter filterShare
  rw [← hread]
  generalize Condition.claim q.collection q.store id = result
  obtain ⟨fault | ids, s⟩ := result
  · exact .error
  · refine .one ids (fun other => ?_) rfl
    cases other <;> simp [clause, Clause.only]

/-- A loose word beside the one that the filter takes is read as before. -/
theorem read_claimFilter_beside (h : s₀.Over q.store) (hid : Loose s₀.size q.store id)
    (hok : (q.claimFilter id).1 = .ok ()) {x : WordId} (hx : Loose s₀.size q.store x)
    (hne : x ≠ id) : (q.claimFilter id).2.store.read x = q.store.read x := by
  unfold claimFilter at hok ⊢
  rcases hclaim : Condition.claim q.collection q.store id with ⟨fault | ids, s⟩
  · rw [hclaim] at hok
    cases hok
  · exact Condition.read_claim_beside h hid hclaim hx hne

theorem store_claimGroup (q : Query) (id : WordId) : (q.claimGroup id).2.store = q.store := by
  unfold claimGroup
  split <;> rfl

theorem comes_group (q : Query) (id : WordId) :
    Comes q (q.claimGroup id) (groupShare (q.store.read id)) := by
  unfold claimGroup groupShare
  cases ColumnList.checkGroup (q.store.read id) with
  | error fault => exact .error
  | ok _ =>
    refine .one [id] (fun other => ?_) rfl
    cases other <;> simp [clause, Clause.only]

theorem comes_page (q : Query) (id : WordId) :
    Comes q (q.claimPage id)
      ((fun _ => Clause.page.gives [q.store.read id]) <$> Paging.setting (q.store.read id)) := by
  unfold claimPage
  cases Paging.setting (q.store.read id) with
  | error fault => exact .error
  | ok setting =>
    refine .one [id] (fun other => ?_) rfl
    cases other <;> simp [clause, Clause.only, Paging.terms_apply]

theorem comes_order (q : Query) (id : WordId) :
    Comes q (q.claimOrder id)
      ((fun _ => Clause.order.gives [q.store.read id]) <$>
        ColumnList.checkOrder (q.store.read id)) := by
  unfold claimOrder
  cases ColumnList.checkOrder (q.store.read id) with
  | error fault => exact .error
  | ok _ =>
    refine .one [id] (fun other => ?_) rfl
    cases other <;> simp [clause, Clause.only]

/-- What the selection keeps comes before what it hands on, if that leaves it alone. -/
theorem Comes.handed {s : Store} {terms : List WordId} {result : Except Fault Unit × Query}
    {given : Except Fault (Clause → List Term)}
    (h : Comes { q with store := s, select := q.select ++ terms } result given)
    (hkept : result.1 = .ok () → ∀ x ∈ terms, result.2.store.read x = s.read x) :
    Comes q result (given >>= fun handed =>
      pure fun kind => Clause.select.gives (terms.map s.read) kind ++ handed kind) := by
  cases given with
  | error fault => exact ⟨h.outcome, fun hts => by cases hts⟩
  | ok handed =>
    refine ⟨h.outcome, fun {ts} hts kind => ?_⟩
    cases hts
    obtain ⟨ids, hclause, hread⟩ := h.gained rfl kind
    have hfirst : (Clause.select.only terms kind).map result.2.store.read =
        Clause.select.gives (terms.map s.read) kind := by
      unfold Clause.only Clause.gives
      split
      · exact List.map_congr_left (hkept h.outcome)
      · rfl
    refine ⟨Clause.select.only terms kind ++ ids, ?_, ?_⟩
    · rw [hclause, ← List.append_assoc]
      cases kind <;> simp [clause, Clause.only]
    · rw [List.map_append, hfirst, hread]

/-- The selection keeps some parts of the term and hands on the others. -/
theorem comes_select (h : s₀.Over q.store) (hid : Loose s₀.size q.store id) :
    Comes q (q.claimSelect id) (share q.collection .select (q.store.read id)) := by
  have hread := Selection.read_claim h hid
  obtain ⟨hedited, hnodup, hloose⟩ := Selection.contributed_claim h hid
  unfold claimSelect share
  dsimp only
  rw [← hread]
  generalize Selection.claim q.store id = result at hedited hnodup hloose ⊢
  obtain ⟨fault | ⟨terms, grouping, filter⟩, s⟩ := result
  · exact .error
  · have hnodup := hnodup _ rfl
    have hloose := hloose _ rfl
    have hover : s₀.Over s := hedited.over h
    rw [Selection.Claim.ids, List.append_assoc] at hnodup hloose
    -- what is handed on is none of the terms that are kept, so its claim leaves those as they are
    obtain ⟨_, _, hapart⟩ := List.nodup_append.1 hnodup
    dsimp only at hnodup hloose hover hapart ⊢
    rcases grouping with _ | grouping
    · rcases filter with _ | filter
      · refine Comes.handed (.nothing _) fun _ _ _ => rfl
      · have hmem : filter ∈ [] ++ [filter] := List.mem_cons_self
        have hfilter := hloose filter (List.mem_append_right terms hmem)
        refine Comes.handed (comes_filter hover.wellFormed hfilter.lt) fun hok x hx => ?_
        exact read_claimFilter_beside hover hfilter hok (hloose x (List.mem_append_left _ hx))
          (hapart x hx filter hmem)
    · refine Comes.handed (comes_group _ grouping) fun _ x _ => ?_
      exact congrArg (fun s => Store.read s x) (store_claimGroup _ grouping)

/-- A clause claims a term. -/
theorem comes_claim (h : s₀.Over q.store) (kind : Clause) (hid : Loose s₀.size q.store id) :
    Comes q (q.claim kind id) (share q.collection kind (q.store.read id)) := by
  cases kind with
  | filter => exact comes_filter h.wellFormed hid.lt
  | page => exact comes_page q id
  | order => exact comes_order q id
  | group => exact comes_group q id
  | select =>
    have hclaim : q.claim .select id = q.claimSelect id := rfl
    rw [hclaim]
    exact comes_select h hid

theorem Comes.of_store {s : Store} {result : Except Fault Unit × Query}
    {given : Except Fault (Clause → List Term)} (h : Comes { q with store := s } result given) :
    Comes q result given := by
  refine ⟨h.outcome, fun hts kind => ?_⟩
  obtain ⟨ids, hclause, hread⟩ := h.gained hts kind
  refine ⟨ids, ?_, hread⟩
  rw [hclause]
  cases kind <;> rfl

/-- A term that is new and no argument of another comes out as it contributes. -/
theorem comes_addTerm (h : s₀.Over q.store) (hid : Loose s₀.size q.store id) :
    Comes q (q.addTerm id) (contribution q.collection (q.store.read id)) := by
  obtain ⟨hlift, hlifted⟩ := edited_liftParameter h hid
  have hread := read_liftParameter h hid
  unfold addTerm contribution
  rw [← hread]
  generalize liftParameter q.store id = lifted at hlift hlifted ⊢
  obtain ⟨root, s⟩ := lifted
  dsimp only at hlift hlifted ⊢
  rw [s.token_read, s.isQuoted_read]
  cases (Clause.owner? (s.token root)).filter fun _ => !s.isQuoted root with
  | some kind =>
    have hclaim := comes_claim (q := { q with store := s }) (hlift.over h) kind hlifted
    dsimp only at hclaim ⊢
    exact hclaim.of_store
  | none => exact .error

/-! ## Fragments -/

/-- A fragment comes out as it contributes. -/
theorem comes_add (hq : q.Sound) (fragment : String) :
    Comes q (q.add fragment) (fragmentContribution q.collection fragment) := by
  have hparse := Store.edited_parse hq.wellFormed (Nat.le_refl _) fragment
  unfold add fragmentContribution
  rcases hread : q.store.parse fragment with ⟨fault | root, s⟩
  · rw [Store.parse_error_of_read hread]
    exact .error
  · rw [hread] at hparse
    rw [Store.parse_of_read hread]
    have hadd := comes_addTerm (q := { q with store := s }) (hparse.over (.refl hq.wellFormed))
      (Store.loose_parse (Nat.le_refl _) hread)
    dsimp only at hadd ⊢
    rw [ok_bind]
    exact hadd.of_store

/-- A fragment that contributes puts its terms behind those of each clause. -/
theorem terms_add (hq : q.Sound) {fragment : String} {ts : Clause → List Term}
    (h : fragmentContribution q.collection fragment = .ok ts) :
    ∃ q', q.add fragment = (.ok (), q') ∧ ∀ kind, q'.terms kind = q.terms kind ++ ts kind := by
  have hcomes := comes_add hq fragment
  have hok : (q.add fragment).1 = .ok () := by
    rw [hcomes.outcome, h]
    rfl
  refine ⟨_, Prod.ext hok rfl, fun kind => ?_⟩
  obtain ⟨ids, hclause, hread⟩ := hcomes.gained h kind
  have hself := Over.refl hq.wellFormed
  have hext := ((claimed_add hself fragment).edited.over hself).extension
  rw [terms_append hq hext hclause, hread]

/-- The terms of a query, after the fragments have been added, are those that it
had and those that the fragments contribute; and the fault is that of the first
fragment at fault. -/
theorem terms_addAll {c : Collection} (fragments : List String) : ∀ {q : Query}, Reached c q →
    terms <$> q.addAll fragments =
      (fun shares kind => q.terms kind ++ shares.flatMap fun ts => ts kind) <$>
        fragments.mapM (fragmentContribution c) := by
  induction fragments with
  | nil =>
    intro q _
    rw [List.mapM_nil]
    exact congrArg Except.ok (funext fun kind => (List.append_nil _).symm)
  | cons fragment fragments ih =>
    intro q hq
    have hnext := hq.add fragment
    have hcomes := comes_add hq.sound fragment
    rw [hq.paged.collection_eq] at hcomes
    rw [List.mapM_cons, addAll]
    cases hshare : fragmentContribution c fragment with
    | error fault =>
      have hfault := hcomes.outcome
      rw [hshare] at hfault
      obtain ⟨q', hq'⟩ := exists_of_fst_eq hfault
      rw [hq']
      rfl
    | ok ts =>
      rw [← hq.paged.collection_eq] at hshare
      obtain ⟨q', hadd, hterms⟩ := terms_add hq.sound hshare
      rw [hadd] at hnext ⊢
      have hrest := ih hnext
      dsimp only
      rw [hrest]
      cases fragments.mapM (fragmentContribution c) with
      | error fault => rfl
      | ok shares =>
        refine congrArg Except.ok (funext fun kind => ?_)
        dsimp only
        rw [hterms, List.flatMap_cons, List.append_assoc]

end Query
end ResourceQuery
