import ResourceQuery.Proofs.Query.Fitting
import ResourceQuery.Proofs.Query.Paging

set_option autoImplicit false

/-!
# Query: terms at fault

A term at fault may have changed the store and, if its parts go to several
clauses, the selection, before the fault was met.  It has touched nothing else:
no word that was there before, and no other clause.

The claims of the clauses are gone through once for this, with `Left` for what
they leave when they fail.  Only `aggregate` and `countascol` have parts for
more than one clause.
-/

namespace ResourceQuery

/-- The words of selection terms that also contribute to another clause. -/
def Selection.spilling : List String := ["aggregate", "function", "countascol"]

/-- Only a spilling term contributes to another clause. -/
theorem Selection.spilling_of_claim {s s' : Store} {id : WordId} {found : Claim}
    (h : claim s id = (.ok found, s'))
    (hspill : found.grouping.isSome = true ∨ found.filter.isSome = true) :
    Text.lower (s.token id) ∈ spilling := by
  have honly : ∀ {named : WordId}, found ≠ .only named := by
    rintro named rfl
    rcases hspill with hsome | hsome
    · cases hsome
    · cases hsome
  unfold claim at h
  dsimp only at h
  split at h
  · split at h
    · cases h
    · exact absurd (Except.ok.inj (congrArg Prod.fst h)).symm honly
  · split at h
    · next hword => simp only [spilling, List.mem_cons]; exact hword.imp_right .inl
    · split at h
      · next hword => simp [spilling, hword]
      · split at h
        · cases h
        · exact absurd (Except.ok.inj (congrArg Prod.fst h)).symm honly

namespace Query

variable {q q' : Query} {id : WordId} {fault : Fault}

/-- Of the query only the store has changed, and the selection has gained words,
none of them unless `spills` holds. -/
def Left (spills : Prop) (q q' : Query) : Prop :=
  ∃ s ids, q' = { q with store := s, select := q.select ++ ids } ∧ (ids ≠ [] → spills)

theorem Left.store {spills : Prop} (q : Query) (s : Store) : Left spills q { q with store := s } :=
  ⟨s, [], by rw [List.append_nil], fun h => absurd rfl h⟩

theorem left_filter {spills : Prop} (h : q.claimFilter id = (.error fault, q')) :
    Left spills q q' := by
  unfold claimFilter at h
  split at h
  · cases h
  · next s _ =>
    cases h
    exact .store q s

theorem left_group {spills : Prop} (h : q.claimGroup id = (.error fault, q')) :
    Left spills q q' := by
  unfold claimGroup at h
  split at h
  · cases h
  · cases h
    exact .store q q.store

theorem left_select (h : q.claimSelect id = (.error fault, q')) :
    Left (Text.lower (q.store.token id) ∈ Selection.spilling) q q' := by
  unfold claimSelect at h
  split at h
  · next s _ =>
    cases h
    exact .store q s
  · next found s hfound =>
    have hspill := Selection.spilling_of_claim hfound
    -- what the selection keeps stays, although the part that goes elsewhere is at fault
    have hkept : ∀ {q'}, Left True { q with store := s, select := q.select ++ found.terms } q' →
        found.grouping.isSome = true ∨ found.filter.isSome = true →
        Left (Text.lower (q.store.token id) ∈ Selection.spilling) q q' := by
      rintro q' ⟨s', ids, rfl, _⟩ hsome
      exact ⟨s', found.terms ++ ids, by rw [List.append_assoc], fun _ => hspill hsome⟩
    dsimp only at h
    rcases hgrouping : found.grouping with _ | grouping
    · rcases hfilter : found.filter with _ | filter
      · rw [hgrouping, hfilter] at h
        cases h
      · rw [hgrouping, hfilter] at h
        exact hkept (left_filter h) (.inr (by rw [hfilter]; rfl))
    · rw [hgrouping] at h
      exact hkept (left_group h) (.inl (by rw [hgrouping]; rfl))

/-- A claim that fails leaves the query as it is, but for the store and the
selection. -/
theorem left_claim (kind : Clause) (h : q.claim kind id = (.error fault, q')) :
    Left (Text.lower (q.store.token id) ∈ Selection.spilling) q q' := by
  unfold claim at h
  cases kind with
  | filter => exact left_filter h
  | group => exact left_group h
  | select => exact left_select h
  | page =>
    simp only [claimPage] at h
    split at h
    · cases h
    · cases h
      exact .store q q.store
  | order =>
    simp only [claimOrder] at h
    split at h
    · cases h
    · cases h
      exact .store q q.store

/-- The term is called by the word of a selection term that also contributes elsewhere. -/
def Spills (t : Term) : Prop := ∃ word ∈ Selection.spilling, t.hasToken word = true

theorem spills_of_lower {t : Term} (hbare : t.isQuoted = false)
    (h : Text.lower t.token ∈ Selection.spilling) : Spills t := by
  have hlower : ∀ word ∈ Selection.spilling, Text.lower word = word := by decide +kernel
  refine ⟨_, h, ?_⟩
  rw [Term.hasToken, hbare, Text.sameWord, hlower _ h]
  simp

theorem left_addTerm {s₀ : Store} (hs : s₀.Over q.store) (hid : Store.Loose s₀.size q.store id)
    (h : q.addTerm id = (.error fault, q')) : Left (Spills (q.store.read id).lifted) q q' := by
  rw [← read_liftParameter hs hid]
  unfold addTerm at h
  generalize liftParameter q.store id = lifted at h ⊢
  obtain ⟨root, s⟩ := lifted
  dsimp only at h ⊢
  cases howner : (Clause.owner? (s.token root)).filter fun _ => !s.isQuoted root with
  | none =>
    rw [howner] at h
    cases h
    exact .store q s
  | some kind =>
    rw [howner] at h
    have hbare := (Option.filter_eq_some_iff.1 howner).2
    obtain ⟨s', ids, rfl, hspills⟩ := left_claim kind h
    refine ⟨s', ids, rfl, fun hne => spills_of_lower ?_ ?_⟩
    · rw [s.isQuoted_read]
      simpa using hbare
    · rw [s.token_read]
      exact hspills hne

/-- A fragment at fault leaves all clauses but the selection as they are. -/
theorem left_add (hq : q.Sound) {fragment : String} (h : q.add fragment = (.error fault, q')) :
    Left (∃ t, Fragment.parse fragment = .ok t ∧ Spills t.lifted) q q' := by
  have hself := Store.Over.refl hq.wellFormed
  unfold add at h
  rcases hparse : q.store.parse fragment with ⟨fault' | id, s⟩
  · rw [hparse] at h
    cases h
    exact .store q s
  · rw [hparse] at h
    have hover : q.store.Over s := by
      have hedited := Store.edited_parse hq.wellFormed (Nat.le_refl _) fragment
      rw [hparse] at hedited
      exact hedited.over hself
    obtain ⟨s', ids, rfl, hspills⟩ := left_addTerm (q := { q with store := s }) hover
      (Store.loose_parse (Nat.le_refl _) hparse) h
    exact ⟨s', ids, rfl, fun hne => ⟨_, Store.parse_of_read hparse, hspills hne⟩⟩

/-- A fragment at fault does limited damage to a query, whatever was added
before: all clauses but the selection hold the same terms, the same rows are
asked for, no word of the store has changed, and the selection has at most
gained terms, none unless the fragment is an aggregate with a grouping or counts
values. -/
theorem add_error_spares_query (c : Collection) (q q' : Query) (fragment : String) (fault : Fault)
    (hq : Reached c q) (h : q.add fragment = (.error fault, q')) :
    (∀ kind, kind ≠ .select → q'.terms kind = q.terms kind) ∧
    (∀ config, q'.page.window config = q.page.window config) ∧
    q'.page.after.isSome = q.page.after.isSome ∧
    q'.page.after.map (fun id => (q'.store.read id).children) =
      q.page.after.map (fun id => (q.store.read id).children) ∧
    (∀ id ∈ q.held, q'.store.read id = q.store.read id) ∧
    (∀ id : WordId, id.index < q.store.size → q'.store.word id = q.store.word id) ∧
    ∃ more, q'.terms .select = q.terms .select ++ more ∧
      (more ≠ [] → ∃ t, Fragment.parse fragment = .ok t ∧
        ∃ word ∈ ["aggregate", "function", "countascol"], t.lifted.hasToken word = true) := by
  have hsound := hq.sound
  have hself := Store.Over.refl hsound.wellFormed
  have hext : q.store.Extends q'.store := by
    have hclaimed := (claimed_add hself fragment).edited.over hself
    rw [h] at hclaimed
    exact hclaimed.extension
  have hreached : Reached c q' := by
    have hstep := hq.add fragment
    rwa [h] at hstep
  have hread : ∀ id ∈ q.held, q'.store.read id = q.store.read id := fun id hid =>
    hext.read_eq hsound.wellFormed (hsound.loose id hid).lt
  obtain ⟨s, ids, rfl, hspills⟩ := left_add hsound h
  have hterms : ∀ kind, kind ≠ .select →
      terms { q with store := s, select := q.select ++ ids } kind = q.terms kind := by
    intro kind hkind
    have hclause : clause { q with store := s, select := q.select ++ ids } kind =
        q.clause kind ++ [] := by
      rw [List.append_nil]
      cases kind with
      | select => exact absurd rfl hkind
      | filter | page | order | group => rfl
    rw [terms_append hsound hext hclause, List.map_nil, List.append_nil]
  have hafter := (hreached.agree hq (hterms .page (by decide))).after_eq
  refine ⟨hterms, fun _ => rfl, rfl, ?_, hread, hext.word_eq, ids.map s.read, ?_, fun hne => ?_⟩
  · have hchildren := congrArg (Option.map Term.children) hafter
    rw [Option.map_map, Option.map_map] at hchildren
    exact hchildren
  · exact terms_append hsound hext rfl
  · exact hspills fun hnil => hne (by rw [hnil, List.map_nil])

/-- A query for things that pages after a key. -/
def pagedThings : Query :=
  (((new things).add "after(7)").2.add "sum(id)").2.add "limit=all" |>.2

theorem add_error_spares_paged_things :
    (pagedThings.add "aggregate(max,f(id),top)").1 =
        .error (.grammar (.expectedColumn "group")) ∧
      (∀ config, (pagedThings.add "aggregate(max,f(id),top)").2.page.window config =
        pagedThings.page.window config) ∧
      (∃ more, (pagedThings.add "aggregate(max,f(id),top)").2.terms .select =
        pagedThings.terms .select ++ more) ∧
      (pagedThings.add "aggregate(max,f(id),top)").2.terms .select =
        [.call "as" [.call "sum" [.word "id"], .leaf "$$$ANON" (some .double)],
          .call "as" [.call "max" [.call "f" [.word "id"]], .word "top"]] := by
  have hreached : Reached things pagedThings := .add (.add (.add .new _) _) _
  have herror : (pagedThings.add "aggregate(max,f(id),top)").1 =
      .error (.grammar (.expectedColumn "group")) := by decide +kernel
  obtain ⟨q', hq'⟩ := exists_of_fst_eq herror
  obtain ⟨_, hwindow, _, _, _, _, more, hmore, _⟩ :=
    add_error_spares_query things pagedThings q' _ _ hreached hq'
  obtain rfl : (pagedThings.add "aggregate(max,f(id),top)").2 = q' := by rw [hq']
  exact ⟨herror, hwindow, ⟨more, hmore⟩, by decide +kernel⟩

end Query
end ResourceQuery
