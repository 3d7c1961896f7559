import Mathlib.Data.List.Nodup
import ResourceQuery.Proofs.ColumnPath
import ResourceQuery.Proofs.Sql.Markers
import ResourceQuery.Proofs.Statement.References

set_option autoImplicit false

/-!
# SQL: the joins of a statement

The joins that were made so far are those of the hops that were taken so far,
one hop for each route.  A route determines the steps that lead to its end, so a
route that was met before leads to the table that it led to before, and each
path leads along its hops to the table of its column.

The invariant is `Scope.Joined`: the hops taken so far, in their order, explain
the joins and the routes of the scope.  A step preserves it whether its route is
new or was met before (`Joined.reach`), and so does a whole path
(`Joined.reachAll`).  That the table of a column is determined by its route is
`Chain.unique`.
-/

namespace ResourceQuery.Sql

/-! ## Hops -/

/-- A step of a path that was joined: the table it starts from, and the first table it joins. -/
structure Hop where
  step : Step
  source : Nat
  first : Nat
  deriving DecidableEq, Repr

namespace Hop

/-- The joins of a hop: that of the target, or that of the link table and behind
it that of the target. -/
def joins (h : Hop) : List Join :=
  match h.step.relationship.through with
  | none => [⟨h.step.target.tableName, h.first, h.source, h.step.relationship.keys⟩]
  | some link =>
    [⟨link.table, h.first, h.source, h.step.relationship.keys⟩,
      ⟨h.step.target.tableName, h.first + 1, h.first, link.keys⟩]

/-- The table that a hop ends at. -/
def last (h : Hop) : Nat := if h.step.relationship.through.isSome then h.first + 1 else h.first

/-- The hop may give several rows for one. -/
def isToMany (h : Hop) : Bool := h.step.relationship.cardinality.isToMany

theorem indexes_joins (h : Hop) :
    h.joins.map Join.index = List.range' h.first h.joins.length := by
  unfold joins
  cases h.step.relationship.through with
  | none => rfl
  | some link => rfl

theorem exists_join_last (h : Hop) : ∃ j ∈ h.joins, j.index = h.last := by
  unfold joins last
  cases h.step.relationship.through with
  | none => exact ⟨_, List.mem_cons_self, rfl⟩
  | some link => exact ⟨_, List.mem_cons_of_mem _ List.mem_cons_self, rfl⟩

/-- A join of a hop starts before its own table, if the hop does. -/
theorem source_lt_of_mem {h : Hop} (hsource : h.source < h.first) :
    ∀ j ∈ h.joins, j.source < j.index := by
  unfold joins
  cases h.step.relationship.through with
  | none =>
    intro j hj
    rw [List.mem_singleton.1 hj]
    exact hsource
  | some link =>
    intro j hj
    rcases List.mem_cons.1 hj with rfl | hj
    · exact hsource
    · rw [List.mem_singleton.1 hj]
      exact Nat.lt_succ_self h.first

end Hop

/-- The hops lead from one table along the steps to another. -/
inductive Chain (hops : List Hop) : Nat → List Step → Nat → Prop where
  | stay (table : Nat) : Chain hops table [] table
  | hop {h : Hop} {steps : List Step} {final : Nat} (hmem : h ∈ hops)
      (hrest : Chain hops h.last steps final) : Chain hops h.source (h.step :: steps) final

namespace Chain

variable {hops hops' : List Hop} {start middle final final' : Nat} {steps steps' : List Step}

theorem mono (h : Chain hops start steps final) (hsub : hops ⊆ hops') :
    Chain hops' start steps final := by
  induction h with
  | stay table => exact .stay table
  | hop hmem _ ih => exact .hop (hsub hmem) ih

theorem trans (h : Chain hops start steps middle) (h' : Chain hops middle steps' final) :
    Chain hops start (steps ++ steps') final := by
  induction h with
  | stay table => exact h'
  | hop hmem _ ih => exact .hop hmem (ih h')

theorem eq_of_nil (h : Chain hops start [] final) : final = start := by
  cases h
  rfl

theorem exists_of_cons {step : Step} (h : Chain hops start (step :: steps) final) :
    ∃ hop ∈ hops, hop.step = step ∧ hop.source = start ∧ Chain hops hop.last steps final := by
  generalize hall : step :: steps = all at h
  cases h with
  | stay table => cases hall
  | hop hmem hrest =>
    obtain ⟨rfl, rfl⟩ := List.cons.inj hall
    exact ⟨_, hmem, rfl, rfl, hrest⟩

theorem exists_of_append (h : Chain hops start (steps ++ steps') final) :
    ∃ middle, Chain hops start steps middle ∧ Chain hops middle steps' final := by
  induction steps generalizing start with
  | nil => exact ⟨start, .stay start, h⟩
  | cons step steps ih =>
    obtain ⟨hop, hmem, rfl, rfl, hrest⟩ := exists_of_cons h
    obtain ⟨middle, hbefore, hafter⟩ := ih hrest
    exact ⟨middle, .hop hmem hbefore, hafter⟩

/-- There is one hop for each route, so the steps lead to one table only. -/
theorem unique (hinj : ∀ h ∈ hops, ∀ h' ∈ hops, h.step.route = h'.step.route → h = h')
    (h : Chain hops start steps final) (h' : Chain hops start steps final') : final = final' := by
  induction h with
  | stay table => exact h'.eq_of_nil.symm
  | @hop hop steps final hmem _ ih =>
    obtain ⟨hop', hmem', hstep, -, hrest'⟩ := exists_of_cons h'
    obtain rfl := hinj hop hmem hop' hmem' (by rw [hstep])
    exact ih hrest'

theorem le (hlast : ∀ h ∈ hops, h.last ≤ middle) (h : Chain hops start steps final)
    (hstart : start ≤ middle) : final ≤ middle := by
  induction h with
  | stay table => exact hstart
  | hop hmem _ ih => exact ih (hlast _ hmem)

end Chain

/-! ## Routes -/

/-- The steps are those that the relationships of some names lead along. -/
def Trail (catalog : Catalog) (root : Collection) (steps : List Step) : Prop :=
  ∃ names final, (∀ name ∈ names, '.' ∉ name.toList) ∧
    ColumnPath.walk catalog root [] names = .ok (steps, final)

section Trail

variable {catalog : Catalog} {root : Collection} {limit : Nat} {before after : List Step}
  {step step' : Step}

theorem Trail.of_append (h : Trail catalog root (before ++ after)) : Trail catalog root before := by
  obtain ⟨names, final, hdots, hwalk⟩ := h
  obtain ⟨first, middle, hgrown, hfirst⟩ := ColumnPath.exists_walk_of_append hwalk
  exact ⟨first, middle, fun name hname => hdots name (hgrown.subset hname), hfirst⟩

theorem Trail.of_follow {path : String} {resolved : Resolved}
    (h : ColumnPath.follow catalog root limit path = .ok resolved) :
    Trail catalog root resolved.steps := by
  obtain ⟨names, last, final, hsegments, hwalk, _⟩ := ColumnPath.follow_ok h
  have hsub : names ⊆ ColumnPath.segments path := by
    rw [hsegments]
    exact List.subset_append_left _ _
  exact ⟨names, final, fun name hname => ColumnPath.not_mem_of_mem_segments (hsub hname), hwalk⟩

/-- The text of a route can be taken apart again, so it determines the whole way. -/
theorem Trail.eq_of_route (h : Trail catalog root (before ++ [step]))
    (h' : Trail catalog root (after ++ [step'])) (hroute : step.route = step'.route) :
    before = after ∧ step = step' := by
  obtain ⟨names, final, hdots, hwalk⟩ := h
  obtain ⟨names', final', hdots', hwalk'⟩ := h'
  obtain ⟨hne, htext⟩ := ColumnPath.route_of_walk hwalk
  obtain ⟨hne', htext'⟩ := ColumnPath.route_of_walk hwalk'
  have hnames : names = names' := by
    rw [← ColumnPath.segments_intercalate hne hdots, ← ColumnPath.segments_intercalate hne' hdots']
    rw [List.nil_append] at htext htext'
    rw [← htext, ← htext', hroute]
  subst hnames
  have hsteps := (Prod.mk.inj (Except.ok.inj (hwalk.symm.trans hwalk'))).1
  obtain ⟨hbefore, hlast⟩ := List.append_inj' hsteps rfl
  exact ⟨hbefore, (List.cons.inj hlast).1⟩

end Trail

/-! ## Scopes -/

/-- The scope is the one of these hops, each of which goes on from where the
steps before it lead to. -/
structure Scope.Joined (catalog : Catalog) (root : Collection) (s : Scope) (hops : List Hop) :
    Prop where
  joins : s.joins = hops.flatMap Hop.joins
  routes : s.routes = (hops.map fun h => (h.step.route, h.last)).reverse
  toMany : s.toMany = hops.any Hop.isToMany
  indexes : s.joins.map Join.index = List.range' 1 s.joins.length
  sources : ∀ j ∈ s.joins, j.source < j.index
  once : ∀ h ∈ hops, ∀ h' ∈ hops, h.step.route = h'.step.route → h = h'
  placed : ∀ h ∈ hops, ∃ before, Trail catalog root (before ++ [h.step]) ∧
    Chain hops 0 before h.source
  keyed : ∀ h ∈ hops, h.step.relationship.keys ≠ []

namespace Scope

variable {catalog : Catalog} {root : Collection} {s s' : Scope} {hops : List Hop} {step : Step}
  {source index : Nat}

/-- Before the first path nothing is joined. -/
theorem joined_start : Joined catalog root start [] where
  joins := rfl
  routes := rfl
  toMany := rfl
  indexes := rfl
  sources _ hj := absurd hj List.not_mem_nil
  once _ h := absurd h List.not_mem_nil
  placed _ h := absurd h List.not_mem_nil
  keyed _ h := absurd h List.not_mem_nil

theorem joinStep_eq (s : Scope) (step : Step) (source : Nat) :
    s.joinStep step source =
      let h : Hop := ⟨step, source, s.joins.length + 1⟩
      (h.last, ⟨s.joins ++ h.joins, (step.route, h.last) :: s.routes, s.toMany || h.isToMany⟩) := by
  obtain ⟨route, ⟨name, cardinality, related, keys, through⟩, target⟩ := step
  cases through with
  | none => rfl
  | some link => simp [joinStep, join, Hop.last, Hop.joins, Hop.isToMany]

namespace Joined

theorem last_le (hs : s.Joined catalog root hops) : ∀ h ∈ hops, h.last ≤ s.joins.length := by
  intro h hmem
  obtain ⟨j, hj, hindex⟩ := h.exists_join_last
  have hjoin : j ∈ s.joins := by
    rw [hs.joins]
    exact List.mem_flatMap.2 ⟨h, hmem, hj⟩
  have hrange := List.mem_map_of_mem (f := Join.index) hjoin
  rw [hs.indexes, hindex] at hrange
  have hbounds := List.mem_range'_1.1 hrange
  omega

theorem table?_eq_some (hs : s.Joined catalog root hops) {route : String}
    (h : s.table? route = some index) : ∃ h ∈ hops, h.step.route = route ∧ h.last = index := by
  obtain ⟨found, hfound, rfl⟩ := Option.map_eq_some_iff.1 h
  have hmem := List.mem_of_find?_eq_some hfound
  rw [hs.routes, List.mem_reverse] at hmem
  obtain ⟨hop, hhop, rfl⟩ := List.mem_map.1 hmem
  exact ⟨hop, hhop, by simpa using List.find?_some hfound, rfl⟩

theorem table?_eq_none (hs : s.Joined catalog root hops) {route : String}
    (h : s.table? route = none) : ∀ h ∈ hops, h.step.route ≠ route := by
  intro h' hmem hroute
  have hnone := List.find?_eq_none.1 (Option.map_eq_none_iff.1 h)
  have hpair : (h'.step.route, h'.last) ∈ s.routes := by
    rw [hs.routes, List.mem_reverse]
    exact List.mem_map.2 ⟨h', hmem, rfl⟩
  exact hnone _ hpair (by simp [hroute])

/-- A hop by a route that was not met before. -/
theorem joinStep (hs : s.Joined catalog root hops) {before : List Step}
    (hnew : ∀ h ∈ hops, h.step.route ≠ step.route) (hkeys : step.relationship.keys ≠ [])
    (htrail : Trail catalog root (before ++ [step])) (hchain : Chain hops 0 before source) :
    (s.joinStep step source).2.Joined catalog root
      (hops ++ [⟨step, source, s.joins.length + 1⟩]) := by
  have hsource : source ≤ s.joins.length := hchain.le hs.last_le (Nat.zero_le _)
  have hsub : hops ⊆ hops ++ [⟨step, source, s.joins.length + 1⟩] :=
    List.subset_append_left _ _
  rw [joinStep_eq]
  refine ⟨?_, ?_, ?_, ?_, ?_, ?_, ?_, ?_⟩
  · simp [hs.joins]
  · simp [hs.routes]
  · simp [hs.toMany]
  · simp only [List.map_append, hs.indexes, Hop.indexes_joins, List.length_append]
    rw [Nat.add_comm s.joins.length 1]
    exact List.range'_append_1
  · intro j hj
    rcases List.mem_append.1 hj with hj | hj
    · exact hs.sources j hj
    · exact Hop.source_lt_of_mem (Nat.lt_succ_of_le hsource) j hj
  -- of two hops by one route at most one is the new one, whose route was not met
  · intro h hmem h' hmem' hroute
    rcases List.mem_append.1 hmem with hold | hlast
    · rcases List.mem_append.1 hmem' with hold' | hlast'
      · exact hs.once h hold h' hold' hroute
      · rw [List.mem_singleton.1 hlast'] at hroute
        exact absurd hroute (hnew h hold)
    · rcases List.mem_append.1 hmem' with hold' | hlast'
      · rw [List.mem_singleton.1 hlast] at hroute
        exact absurd hroute.symm (hnew h' hold')
      · rw [List.mem_singleton.1 hlast, List.mem_singleton.1 hlast']
  · intro h hmem
    rcases List.mem_append.1 hmem with hold | hlast
    · obtain ⟨before', htrail', hchain'⟩ := hs.placed h hold
      exact ⟨before', htrail', hchain'.mono hsub⟩
    · rw [List.mem_singleton.1 hlast]
      exact ⟨before, htrail, hchain.mono hsub⟩
  · intro h hmem
    rcases List.mem_append.1 hmem with hold | hlast
    · exact hs.keyed h hold
    · rw [List.mem_singleton.1 hlast]
      exact hkeys

/-- A step leads along its hop, whether it is new or not. -/
theorem reach (hs : s.Joined catalog root hops) {before : List Step}
    (htrail : Trail catalog root (before ++ [step])) (hchain : Chain hops 0 before source)
    (h : s.reach step source = .ok (index, s')) :
    ∃ hops', hops <+: hops' ∧ s'.Joined catalog root hops' ∧
      Chain hops' 0 (before ++ [step]) index ∧ ∀ h ∈ hops', h ∈ hops ∨ h.step = step := by
  unfold Scope.reach at h
  cases hknown : s.table? step.route with
  | some known =>
    rw [hknown] at h
    cases h
    obtain ⟨h, hmem, hroute, rfl⟩ := hs.table?_eq_some hknown
    -- the hop of this route was made for the same steps, and so from the same table
    obtain ⟨before', htrail', hchain'⟩ := hs.placed h hmem
    obtain ⟨rfl, rfl⟩ := htrail'.eq_of_route htrail hroute
    obtain rfl := hchain'.unique hs.once hchain
    exact ⟨hops, List.prefix_rfl, hs, hchain.trans (.hop hmem (.stay _)), fun _ h => .inl h⟩
  | none =>
    rw [hknown] at h
    dsimp only at h
    split at h
    · cases h
    · next hkeys =>
      have hpair : s.joinStep step source = (index, s') := Except.ok.inj h
      have hjoined := hs.joinStep (hs.table?_eq_none hknown) hkeys htrail hchain
      rw [hpair] at hjoined
      rw [joinStep_eq] at hpair
      obtain ⟨rfl, _⟩ := Prod.mk.inj hpair
      have hmem : (⟨step, source, s.joins.length + 1⟩ : Hop) ∈
          hops ++ [⟨step, source, s.joins.length + 1⟩] := List.mem_append_right _ List.mem_cons_self
      refine ⟨_, List.prefix_append _ _, hjoined, ?_, fun h hh => ?_⟩
      · exact (hchain.mono (List.subset_append_left _ _)).trans (.hop hmem (.stay _))
      · rcases List.mem_append.1 hh with hh | hh
        · exact .inl hh
        · rw [List.mem_singleton.1 hh]
          exact .inr rfl

/-- Steps lead along their hops. -/
theorem reachAll {steps : List Step} :
    ∀ {s s' : Scope} {hops : List Hop} {before : List Step} {source index : Nat},
      s.Joined catalog root hops → Trail catalog root (before ++ steps) →
      Chain hops 0 before source → s.reachAll source steps = .ok (index, s') →
      ∃ hops', hops <+: hops' ∧ s'.Joined catalog root hops' ∧
        Chain hops' 0 (before ++ steps) index ∧ ∀ h ∈ hops', h ∈ hops ∨ h.step ∈ steps := by
  induction steps with
  | nil =>
    intro s s' hops before source index hs _ hchain h
    obtain ⟨rfl, rfl⟩ := Prod.mk.inj (Except.ok.inj h)
    rw [List.append_nil]
    exact ⟨hops, List.prefix_rfl, hs, hchain, fun _ h => .inl h⟩
  | cons step steps ih =>
    intro s s' hops before source index hs htrail hchain h
    obtain ⟨⟨middle, s₁⟩, hstep, hrest⟩ := bind_eq_ok_iff.1 h
    rw [List.append_cons] at htrail ⊢
    obtain ⟨hops₁, hgrown, hs₁, hchain₁, hnew⟩ := hs.reach htrail.of_append hchain hstep
    obtain ⟨hops₂, hgrown', hs₂, hchain₂, hnew'⟩ := ih hs₁ htrail hchain₁ hrest
    refine ⟨hops₂, hgrown.trans hgrown', hs₂, hchain₂, fun h hh => ?_⟩
    rcases hnew' h hh with hh | hh
    · rcases hnew h hh with hh | rfl
      · exact .inl hh
      · exact .inr List.mem_cons_self
    · exact .inr (List.mem_cons_of_mem step hh)

end Joined
end Scope

/-! ## Columns -/

/-- The path leads along the hops to the table of the column, and there to its property. -/
def Arrives (catalog : Catalog) (root : Collection) (limit : Nat) (hops : List Hop)
    (path : String) (c : Column) : Prop :=
  ∃ resolved, ColumnPath.follow catalog root limit path = .ok resolved ∧
    c.name = resolved.property.columnName ∧ Chain hops 0 resolved.steps c.table

/-- The step is one of those that the path leads along. -/
def OnTheWay (catalog : Catalog) (root : Collection) (limit : Nat) (path : String) (step : Step) :
    Prop :=
  ∃ resolved, ColumnPath.follow catalog root limit path = .ok resolved ∧ step ∈ resolved.steps

section Columns

variable {catalog : Catalog} {root : Collection} {limit : Nat} {hops hops' : List Hop}
  {path path' : String} {c c' : Column}

/-- More hops do not change where a path arrives. -/
theorem Arrives.mono (h : Arrives catalog root limit hops path c) (hsub : hops ⊆ hops') :
    Arrives catalog root limit hops' path c := by
  obtain ⟨resolved, hfollow, hname, hchain⟩ := h
  exact ⟨resolved, hfollow, hname, hchain.mono hsub⟩

theorem Arrives.table_eq_zero (h : Arrives catalog root limit hops path c)
    (hdot : '.' ∉ path.toList) : c.table = 0 := by
  obtain ⟨resolved, hfollow, _, hchain⟩ := h
  rw [(ColumnPath.follow_plain hdot hfollow).1] at hchain
  exact hchain.eq_of_nil

/-- Paths that differ in their last segments alone lead to the same table. -/
theorem Arrives.table_eq (hinj : ∀ h ∈ hops, ∀ h' ∈ hops, h.step.route = h'.step.route → h = h')
    (h : Arrives catalog root limit hops path c) (h' : Arrives catalog root limit hops path' c')
    (hroute : (ColumnPath.segments path).dropLast = (ColumnPath.segments path').dropLast) :
    c.table = c'.table := by
  obtain ⟨resolved, hfollow, _, hchain⟩ := h
  obtain ⟨resolved', hfollow', _, hchain'⟩ := h'
  obtain ⟨names, _, _, hsegments, hwalk, _⟩ := ColumnPath.follow_ok hfollow
  obtain ⟨names', _, _, hsegments', hwalk', _⟩ := ColumnPath.follow_ok hfollow'
  rw [hsegments, hsegments', List.dropLast_concat, List.dropLast_concat] at hroute
  subst hroute
  have hsteps := (Prod.mk.inj (Except.ok.inj (hwalk.symm.trans hwalk'))).1
  rw [← hsteps] at hchain'
  exact hchain.unique hinj hchain'

/-- A path that is resolved arrives at the column it is resolved to. -/
theorem arrives_resolve {p p' : Progress Scope} {property : Property}
    (hs : p.scope.Joined catalog root hops)
    (h : resolve catalog root limit path p = .ok ((c, property), p')) :
    ∃ hops', hops <+: hops' ∧ p'.scope.Joined catalog root hops' ∧
      Arrives catalog root limit hops' path c ∧
      ∀ h ∈ hops', h ∈ hops ∨ OnTheWay catalog root limit path h.step := by
  obtain ⟨resolved, scope, hfollow, hreach, hname, _, rfl⟩ := resolve_run catalog root limit h
  have htrail : Trail catalog root ([] ++ resolved.steps) := Trail.of_follow hfollow
  obtain ⟨hops', hgrown, hs', hchain, hnew⟩ := hs.reachAll htrail (.stay 0) hreach
  exact ⟨hops', hgrown, hs', ⟨resolved, hfollow, hname, hchain⟩,
    fun h hh => (hnew h hh).imp_right fun hstep => ⟨resolved, hfollow, hstep⟩⟩

/-- All paths that are resolved in the course of a run lead along hops, and
there are no hops besides those on their ways. -/
theorem arrives_resolves {p p' : Progress Scope} {uses : List (String × Column)}
    (h : (dialog catalog root limit).Resolves p uses p') :
    ∀ {hops : List Hop}, p.scope.Joined catalog root hops →
      ∃ hops', hops <+: hops' ∧ p'.scope.Joined catalog root hops' ∧
        (∀ use ∈ uses, Arrives catalog root limit hops' use.1 use.2) ∧
        ∀ h ∈ hops', h ∈ hops ∨ ∃ use ∈ uses, OnTheWay catalog root limit use.1 h.step := by
  induction h with
  | done hscope =>
    intro hops hs
    rw [← hscope] at hs
    exact ⟨hops, List.prefix_rfl, hs, fun _ huse => absurd huse List.not_mem_nil, fun _ h => .inl h⟩
  | @step p p₁ p₂ p₃ path c property uses hsame hresolve _ ih =>
    intro hops hs
    rw [← hsame] at hs
    obtain ⟨hops₁, hgrown, hs₁, harrives, hnew⟩ := arrives_resolve hs hresolve
    obtain ⟨hops₂, hgrown', hs₂, harrives', hnew'⟩ := ih hs₁
    refine ⟨hops₂, hgrown.trans hgrown', hs₂, fun use huse => ?_, fun h hh => ?_⟩
    · rcases List.mem_cons.1 huse with rfl | huse
      · exact harrives.mono hgrown'.subset
      · exact harrives' use huse
    · rcases hnew' h hh with hh | ⟨use, huse, hway⟩
      · exact (hnew h hh).imp_right fun hway => ⟨_, List.mem_cons_self, hway⟩
      · exact .inr ⟨use, List.mem_cons_of_mem _ huse, hway⟩

end Columns

end ResourceQuery.Sql
