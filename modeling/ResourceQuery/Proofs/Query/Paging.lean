import ResourceQuery.Proofs.Query.Invariant
import ResourceQuery.Proofs.Term.Reading

set_option autoImplicit false

/-!
# Query: paging along a run

What a query pages by is what its paging terms set, one after the other. Queries
with the same paging terms ask for the same rows.

The clauses are gone through once to see that only paging terms change what is
paged by, and that a step at fault changes nothing (`pagesOn_claim`).
-/

namespace ResourceQuery

namespace Paging

/-- Takes up the term at an id, unless it is at fault. -/
def takeUp (read : WordId → Term) (p : Paging) (id : WordId) : Paging :=
  match setting (read id) with
  | .ok setting => p.apply id setting
  | .error _ => p

/-- What the terms at the ids set, one after the other. -/
def replay (read : WordId → Term) (ids : List WordId) : Paging := ids.foldl (takeUp read) none

theorem replay_append_singleton {read : WordId → Term} (ids : List WordId) {id : WordId}
    {set : Setting} (h : setting (read id) = .ok set) :
    replay read (ids ++ [id]) = (replay read ids).apply id set := by
  rw [replay, List.foldl_append, List.foldl_cons, List.foldl_nil, takeUp, h]
  rfl

/-- Terms that are read alike set the same. -/
theorem replay_congr {read read' : WordId → Term} {ids : List WordId}
    (h : ∀ id ∈ ids, read' id = read id) : replay read' ids = replay read ids := by
  unfold replay
  refine List.foldl_ext _ _ _ fun p id hid => ?_
  rw [takeUp, takeUp, h id hid]

/-- The same is set, with the same terms to go on from. -/
structure Agree (read read' : WordId → Term) (p p' : Paging) : Prop where
  offset_eq : p.offset = p'.offset
  limit_eq : p.limit = p'.limit
  page_eq : p.page = p'.page
  pageSize_eq : p.pageSize = p'.pageSize
  after_eq : p.after.map read = p'.after.map read'

variable {read read' : WordId → Term} {p p' : Paging}

theorem Agree.window_eq (h : Agree read read' p p') (config : Config) :
    p.window config = p'.window config := by
  rw [window, window, h.offset_eq, h.limit_eq, h.page_eq, h.pageSize_eq]

theorem Agree.apply {id id' : WordId} (h : Agree read read' p p') (hread : read id = read' id')
    (set : Setting) : Agree read read' (p.apply id set) (p'.apply id' set) := by
  obtain ⟨hoffset, hlimit, hpage, hsize, hafter⟩ := h
  cases set with
  | offset value => exact ⟨rfl, hlimit, hpage, hsize, hafter⟩
  | limit value => exact ⟨hoffset, rfl, hpage, hsize, hafter⟩
  | page value => exact ⟨hoffset, hlimit, rfl, hsize, hafter⟩
  | pageSize value => exact ⟨hoffset, hlimit, hpage, rfl, hafter⟩
  | after => exact ⟨hoffset, hlimit, hpage, hsize, congrArg some hread⟩

theorem Agree.takeUp {id id' : WordId} (h : Agree read read' p p') (hread : read id = read' id') :
    Agree read read' (takeUp read p id) (takeUp read' p' id') := by
  unfold Paging.takeUp
  rw [← hread]
  cases setting (read id) with
  | ok set => exact h.apply hread set
  | error _ => exact h

theorem Agree.foldl (ids : List WordId) : ∀ {ids' : List WordId} {p p' : Paging},
    Agree read read' p p' → ids.map read = ids'.map read' →
      Agree read read' (ids.foldl (Paging.takeUp read) p) (ids'.foldl (Paging.takeUp read') p') := by
  induction ids with
  | nil =>
    intro ids' p p' h hmap
    obtain rfl := List.map_eq_nil_iff.1 hmap.symm
    exact h
  | cons id ids ih =>
    intro ids' p p' h hmap
    cases ids' with
    | nil => cases hmap
    | cons id' ids' =>
      rw [List.map_cons, List.map_cons, List.cons.injEq] at hmap
      rw [List.foldl_cons, List.foldl_cons]
      exact ih (h.takeUp hmap.1) hmap.2

/-- The same terms set the same, whatever their ids are. -/
theorem agree_replay {ids ids' : List WordId} (h : ids.map read = ids'.map read') :
    Agree read read' (replay read ids) (replay read' ids') :=
  .foldl ids ⟨rfl, rfl, rfl, rfl, rfl⟩ h

end Paging

namespace Query

variable {q q' : Query} {id : WordId}

/-- The collection stays, and so does the paging, or it takes up a term. -/
structure PagesOn (q q' : Query) : Prop where
  collection_eq : q'.collection = q.collection
  page_eq : q'.page = q.page ∨ ∃ id set, Paging.setting (q'.store.read id) = .ok set ∧
    q'.page = q.page.apply id set

theorem PagesOn.of_eq {q₀ : Query} (h : q₀.PagesOn q') (hcollection : q₀.collection = q.collection)
    (hpage : q₀.page = q.page) : q.PagesOn q' := by
  obtain ⟨hcollection', hpage'⟩ := h
  rw [hcollection] at hcollection'
  rw [hpage] at hpage'
  exact ⟨hcollection', hpage'⟩

theorem pagesOn_filter (q : Query) (id : WordId) : q.PagesOn (q.claimFilter id).2 := by
  unfold claimFilter
  split <;> exact ⟨rfl, .inl rfl⟩

theorem pagesOn_group (q : Query) (id : WordId) : q.PagesOn (q.claimGroup id).2 := by
  unfold claimGroup
  split <;> exact ⟨rfl, .inl rfl⟩

theorem pagesOn_page (q : Query) (id : WordId) : q.PagesOn (q.claimPage id).2 := by
  unfold claimPage
  cases hset : Paging.setting (q.store.read id) with
  | ok set => exact ⟨rfl, .inr ⟨id, set, hset, rfl⟩⟩
  | error fault => exact ⟨rfl, .inl rfl⟩

theorem pagesOn_order (q : Query) (id : WordId) : q.PagesOn (q.claimOrder id).2 := by
  unfold claimOrder
  split <;> exact ⟨rfl, .inl rfl⟩

theorem pagesOn_select (q : Query) (id : WordId) : q.PagesOn (q.claimSelect id).2 := by
  unfold claimSelect
  generalize Selection.claim q.store id = result
  obtain ⟨fault | found, s⟩ := result
  · exact ⟨rfl, .inl rfl⟩
  · dsimp only
    rcases found.grouping with _ | grouping
    · rcases found.filter with _ | filter
      · exact ⟨rfl, .inl rfl⟩
      · exact (pagesOn_filter _ filter).of_eq rfl rfl
    · exact (pagesOn_group _ grouping).of_eq rfl rfl

theorem pagesOn_claim (q : Query) (kind : Clause) (id : WordId) :
    q.PagesOn (q.claim kind id).2 := by
  unfold claim
  cases kind with
  | filter => exact pagesOn_filter q id
  | page => exact pagesOn_page q id
  | order => exact pagesOn_order q id
  | group => exact pagesOn_group q id
  | select => exact pagesOn_select q id

theorem pagesOn_addTerm (q : Query) (id : WordId) : q.PagesOn (q.addTerm id).2 := by
  unfold addTerm
  generalize liftParameter q.store id = lifted
  obtain ⟨root, s⟩ := lifted
  dsimp only
  cases (Clause.owner? (s.token root)).filter fun _ => !s.isQuoted root with
  | some kind => exact (pagesOn_claim _ kind root).of_eq rfl rfl
  | none => exact ⟨rfl, .inl rfl⟩

theorem pagesOn_add (q : Query) (fragment : String) : q.PagesOn (q.add fragment).2 := by
  unfold add
  generalize q.store.parse fragment = result
  obtain ⟨fault | root, s⟩ := result
  · exact ⟨rfl, .inl rfl⟩
  · exact (pagesOn_addTerm _ root).of_eq rfl rfl

/-- The query is against the collection, and pages by what its paging terms set. -/
structure Paged (c : Collection) (q : Query) : Prop where
  collection_eq : q.collection = c
  page_eq : q.page = Paging.replay q.store.read q.page.terms

/-- A step beside a sound query leaves its paging terms alone. -/
theorem Paged.step {c : Collection} (h : Paged c q) (hq : q.Sound)
    (hext : q.store.Extends q'.store) (hstep : q.PagesOn q') : Paged c q' := by
  have hold : ∀ x ∈ q.page.terms, q'.store.read x = q.store.read x := fun x hx =>
    hext.read_eq hq.wellFormed (hq.loose x (List.mem_flatMap.2 ⟨.page, by decide, hx⟩)).lt
  have hpage : q.page = Paging.replay q'.store.read q.page.terms := by
    rw [Paging.replay_congr hold, ← h.page_eq]
  refine ⟨hstep.collection_eq.trans h.collection_eq, ?_⟩
  rcases hstep.page_eq with hsame | ⟨id, set, hset, hsame⟩
  · rw [hsame, ← hpage]
  · rw [hsame, Paging.terms_apply, Paging.replay_append_singleton _ hset, ← hpage]

/-- Along every run a query pages by what its paging terms set. -/
theorem Reached.paged {c : Collection} (h : Reached c q) : Paged c q := by
  induction h with
  | new => exact ⟨rfl, rfl⟩
  | @add q hq fragment ih =>
    have hsound := hq.sound
    have hover := Store.Over.refl hsound.wellFormed
    exact ih.step hsound ((claimed_add hover fragment).edited.over hover).extension
      (pagesOn_add q fragment)
  | @addTerm q hq s id hs hid ih =>
    exact ih.step hq.sound ((claimed_addTerm hs hid).edited.over hs).extension
      ((pagesOn_addTerm _ id).of_eq rfl rfl)

/-- Queries with the same paging terms page alike. -/
theorem Reached.agree {c : Collection} (hq : Reached c q) (hq' : Reached c q')
    (h : q.terms .page = q'.terms .page) :
    Paging.Agree q.store.read q'.store.read q.page q'.page := by
  rw [hq.paged.page_eq, hq'.paged.page_eq]
  exact Paging.agree_replay h

end Query
end ResourceQuery
