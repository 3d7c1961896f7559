import Mathlib.Data.Finset.Card
import Mathlib.Data.List.Infix
import ResourceQuery.Catalog.Sample
import ResourceQuery.Proofs.Sql.Scoping

set_option autoImplicit false

/-!
# SQL: which paths share their joins

A route is the beginning of a path, up to one of its relationships, as it is
typed.  Each route that a request refers to is joined once and ends at a table
of its own.  A relationship is found by its name without regard to case, and a
route is found again by its text.  Routes that differ in case alone thus lead
along the same relationships and are joined beside each other, and there are as
many hops as sequences of relationships exactly if no two routes of the request
differ so.

Routes and hops determine each other: a hop has the text of its route, and a
route of the request has a hop (`exists_hop_of_route`).  Counting the hops is
thus counting routes, and routes are compared by their letters where
relationships are not.
-/

namespace ResourceQuery

/-! ## Names and relationships -/

namespace ColumnPath

/-- The relationships that names lead along. -/
def relationships (catalog : Catalog) (root : Collection) (names : List String) :
    Option (List Relationship) :=
  (walk catalog root [] names).toOption.map fun walked => walked.1.map Step.relationship

/-- The names differ at most in the case of ASCII letters. -/
def SameNames (names names' : List String) : Prop :=
  List.Forall₂ (fun name name' => Text.sameWord name name' = true) names names'

instance (names names' : List String) : Decidable (SameNames names names') :=
  inferInstanceAs (Decidable (List.Forall₂ _ names names'))

variable {catalog : Catalog} {root current final final' : Collection} {name name' : String}
  {walked walked' names names' : List String} {steps steps' : List Step}
  {relationship relationship' : Relationship}

theorem relationship?_eq_iff (h : current.relationship? name = some relationship)
    (h' : current.relationship? name' = some relationship') :
    relationship = relationship' ↔ Text.sameWord name name' = true := by
  rw [Collection.relationship?] at h h'
  have hfound := List.find?_some h
  have hfound' := List.find?_some h'
  rw [Text.sameWord_iff] at hfound hfound' ⊢
  constructor
  · rintro rfl
    exact hfound.symm.trans hfound'
  · intro hsame
    have htest : (fun r : Relationship => Text.sameWord r.name name) =
        fun r => Text.sameWord r.name name' := by
      funext r
      rw [Text.sameWord, Text.sameWord, hsame]
    rw [htest] at h
    exact Option.some.inj (h.symm.trans h')

/-- Names lead along the same relationships exactly if they differ in case alone. -/
theorem relationships_of_walk_eq_iff
    (h : walk catalog current walked names = .ok (steps, final))
    (h' : walk catalog current walked' names' = .ok (steps', final')) :
    steps.map Step.relationship = steps'.map Step.relationship ↔ SameNames names names' := by
  induction names generalizing current walked walked' names' steps steps' with
  | nil =>
    obtain ⟨rfl, -⟩ := walk_nil_ok_iff.1 h
    cases names' with
    | nil =>
      obtain ⟨rfl, -⟩ := walk_nil_ok_iff.1 h'
      exact ⟨fun _ => .nil, fun _ => rfl⟩
    | cons name' names' =>
      obtain ⟨relationship', target', rest', -, -, -, rfl⟩ := walk_cons_ok_iff.1 h'
      exact iff_of_false (by simp) (by simp [SameNames])
  | cons name names ih =>
    obtain ⟨relationship, target, rest, hname, htarget, hwalk, rfl⟩ := walk_cons_ok_iff.1 h
    cases names' with
    | nil =>
      obtain ⟨rfl, -⟩ := walk_nil_ok_iff.1 h'
      exact iff_of_false (by simp) (by simp [SameNames])
    | cons name' names' =>
      obtain ⟨relationship', target', rest', hname', htarget', hwalk', rfl⟩ :=
        walk_cons_ok_iff.1 h'
      rw [List.map_cons, List.map_cons, List.cons.injEq, SameNames, List.forall₂_cons,
        relationship?_eq_iff hname hname']
      refine and_congr_right fun hsame => ?_
      -- the same relationship leads to the same collection, from where the others are followed
      obtain rfl := (relationship?_eq_iff hname hname').2 hsame
      obtain rfl := Except.ok.inj (htarget.symm.trans htarget')
      exact ih hwalk hwalk'

theorem relationships_of_walk (h : walk catalog root [] names = .ok (steps, final)) :
    relationships catalog root names = some (steps.map Step.relationship) := by
  rw [relationships, h]
  rfl

theorem steps_eq_nil_iff (h : walk catalog current walked names = .ok (steps, final)) :
    steps = [] ↔ names = [] := by
  cases names with
  | nil => exact ⟨fun _ => rfl, fun _ => (walk_nil_ok_iff.1 h).1⟩
  | cons name names =>
    obtain ⟨relationship, target, rest, -, -, -, rfl⟩ := walk_cons_ok_iff.1 h
    exact iff_of_false (List.cons_ne_nil _ _) (List.cons_ne_nil _ _)

end ColumnPath

namespace Sql

/-! ## Routes -/

/-- The routes of the paths that a request refers to. -/
def routes (r : Request) : List (List String) :=
  (references r).flatMap fun path =>
    (ColumnPath.segments path).dropLast.inits.filter fun names => names ≠ []

/-- The route that a hop was made for. -/
def Hop.names (h : Hop) : List String := ColumnPath.segments h.step.route

/-- The table that a route ends at. -/
def tableOf (hops : List Hop) (names : List String) : Nat :=
  if names = [] then 0 else ((hops.find? fun h => h.names = names).map Hop.last).getD 0

theorem mem_routes {r : Request} {names : List String} :
    names ∈ routes r ↔ names ≠ [] ∧ ∃ path ∈ references r,
      names <+: (ColumnPath.segments path).dropLast := by
  simp only [routes, List.mem_flatMap, List.mem_filter, List.mem_inits, decide_eq_true_eq]
  constructor
  · rintro ⟨path, hpath, hstart, hne⟩
    exact ⟨hne, path, hpath, hstart⟩
  · rintro ⟨hne, path, hpath, hstart⟩
    exact ⟨path, hpath, hstart, hne⟩

theorem not_mem_of_mem_routes {r : Request} {names : List String} (h : names ∈ routes r) :
    ∀ name ∈ names, '.' ∉ name.toList := by
  obtain ⟨-, path, -, hstart⟩ := mem_routes.1 h
  intro name hname
  exact ColumnPath.not_mem_of_mem_segments (List.dropLast_subset _ (hstart.subset hname))

/-- The tables that hops end at are among those of their joins. -/
theorem Hop.map_last_sublist (hops : List Hop) :
    (hops.map Hop.last).Sublist ((hops.flatMap Hop.joins).map Join.index) := by
  induction hops with
  | nil => exact List.Sublist.refl _
  | cons h hops ih =>
    obtain ⟨j, hj, hlast⟩ := h.exists_join_last
    have hmem : h.last ∈ h.joins.map Join.index := List.mem_map.2 ⟨j, hj, hlast⟩
    rw [List.flatMap_cons, List.map_append, List.map_cons]
    exact (List.singleton_sublist.2 hmem).append ih

/-- The last step along a route has the text of the route. -/
theorem names_of_walk {catalog : Catalog} {root final : Collection} {names : List String}
    {before : List Step} {h : Hop} (hdots : ∀ name ∈ names, '.' ∉ name.toList)
    (hwalk : ColumnPath.walk catalog root [] names = .ok (before ++ [h.step], final)) :
    h.names = names ∧ h.step.route = ".".intercalate h.names := by
  obtain ⟨hne, hroute⟩ := ColumnPath.route_of_walk hwalk
  rw [List.nil_append] at hroute
  have hnames : h.names = names := by
    rw [Hop.names, hroute, ColumnPath.segments_intercalate hne hdots]
  rw [hnames]
  exact ⟨rfl, hroute⟩

namespace Plan.WellScoped

variable {catalog : Catalog} {limit : Nat} {r : Request} {d : Dialect} {p : Plan} {hops : List Hop}
  {names : List String} {h h' : Hop}

/-- A hop was made for a route of the request. -/
theorem names_mem_routes (hp : p.WellScoped catalog limit r d hops) (hmem : h ∈ hops) :
    h.names ∈ routes r ∧ h.step.route = ".".intercalate h.names := by
  obtain ⟨path, hpath, resolved, hfollow, hstep⟩ := hp.needed h hmem
  obtain ⟨all, last, final, hsegments, hwalk, -⟩ := ColumnPath.follow_ok hfollow
  obtain ⟨before, after, hsteps⟩ := List.append_of_mem hstep
  rw [hsteps, List.append_cons] at hwalk
  obtain ⟨names, mid, hstart, hwalk⟩ := ColumnPath.exists_walk_of_append hwalk
  have hroute : names ∈ routes r := by
    refine mem_routes.2 ⟨(ColumnPath.route_of_walk hwalk).1, path, hpath, ?_⟩
    rwa [hsegments, List.dropLast_concat]
  obtain ⟨hnames, htext⟩ := names_of_walk (not_mem_of_mem_routes hroute) hwalk
  exact ⟨hnames ▸ hroute, htext⟩

theorem eq_of_names (hp : p.WellScoped catalog limit r d hops) (hmem : h ∈ hops)
    (hmem' : h' ∈ hops) (hnames : h.names = h'.names) : h = h' := by
  refine hp.once h hmem h' hmem' ?_
  rw [(hp.names_mem_routes hmem).2, (hp.names_mem_routes hmem').2, hnames]

theorem tableOf_names (hp : p.WellScoped catalog limit r d hops) (hmem : h ∈ hops) :
    tableOf hops h.names = h.last := by
  have hne : h.names ≠ [] := ColumnPath.segments_ne_nil _
  rw [tableOf, if_neg hne]
  cases hfound : hops.find? fun g => g.names = h.names with
  | none => exact absurd (decide_eq_true rfl) (List.find?_eq_none.1 hfound h hmem)
  | some g =>
    have hnames := List.find?_some hfound
    obtain rfl := hp.eq_of_names (List.mem_of_find?_eq_some hfound) hmem (of_decide_eq_true hnames)
    rfl

/-- A path leads along the hops of its routes. -/
theorem chain_of_reference (hp : p.WellScoped catalog limit r d hops) {path : String} {c : Column}
    (huse : (path, c) ∈ (references r).zip p.columns) :
    ∃ steps final, ColumnPath.walk catalog r.collection [] (ColumnPath.segments path).dropLast =
      .ok (steps, final) ∧ Chain hops 0 steps c.table := by
  obtain ⟨resolved, hfollow, -, hchain⟩ := (List.forall₂_iff_zip.1 hp.arrives).2 huse
  obtain ⟨all, last, final, hsegments, hwalk, -⟩ := ColumnPath.follow_ok hfollow
  refine ⟨resolved.steps, final, ?_, hchain⟩
  rwa [hsegments, List.dropLast_concat]

/-- Steps lead to the table of their route. -/
theorem exists_hop_of_chain (hp : p.WellScoped catalog limit r d hops) {steps : List Step}
    {final : Collection} {table : Nat} (hne : names ≠ [])
    (hdots : ∀ name ∈ names, '.' ∉ name.toList)
    (hwalk : ColumnPath.walk catalog r.collection [] names = .ok (steps, final))
    (hchain : Chain hops 0 steps table) :
    (∃ h ∈ hops, h.names = names) ∧ tableOf hops names = table := by
  rcases List.eq_nil_or_concat steps with hnil | ⟨before, step, hsteps⟩
  · exact absurd ((ColumnPath.steps_eq_nil_iff hwalk).1 hnil) hne
  · rw [List.concat_eq_append] at hsteps
    subst hsteps
    obtain ⟨middle, -, hlast⟩ := hchain.exists_of_append
    obtain ⟨h, hmem, rfl, -, hstay⟩ := hlast.exists_of_cons
    obtain ⟨hnames, -⟩ := names_of_walk hdots hwalk
    rw [← hnames, hp.tableOf_names hmem, hstay.eq_of_nil]
    exact ⟨⟨h, hmem, rfl⟩, rfl⟩

/-- Every route of the request has its hop, and ends at the table of it. -/
theorem exists_hop_of_route (hp : p.WellScoped catalog limit r d hops) (hroute : names ∈ routes r) :
    ∃ steps final, ColumnPath.walk catalog r.collection [] names = .ok (steps, final) ∧
      Chain hops 0 steps (tableOf hops names) ∧ ∃ h ∈ hops, h.names = names := by
  obtain ⟨hne, path, hpath, rest, hrest⟩ := mem_routes.1 hroute
  obtain ⟨place, hplace, rfl⟩ := List.getElem_of_mem hpath
  have hcolumn : place < p.columns.length := hp.arrives.length_eq ▸ hplace
  have huse : ((references r)[place], p.columns[place]) ∈ (references r).zip p.columns :=
    List.mem_iff_getElem.2 ⟨place, by rw [List.length_zip]; omega, List.getElem_zip⟩
  obtain ⟨steps, final, hwalk, hchain⟩ := hp.chain_of_reference huse
  rw [← hrest] at hwalk
  obtain ⟨before, mid, after, hbefore, rfl⟩ := ColumnPath.walk_append_ok hwalk
  obtain ⟨table, hreached, -⟩ := hchain.exists_of_append
  obtain ⟨hhop, htable⟩ :=
    hp.exists_hop_of_chain hne (not_mem_of_mem_routes hroute) hbefore hreached
  rw [htable]
  exact ⟨before, mid, hbefore, hreached, hhop⟩

/-- Different hops end at different tables. -/
theorem nodup_last (hp : p.WellScoped catalog limit r d hops) : (hops.map Hop.last).Nodup := by
  have hindexes : (p.joins.map Join.index).Nodup := by
    rw [hp.aliases]
    exact List.nodup_range'
  rw [hp.joins] at hindexes
  exact hindexes.sublist (Hop.map_last_sublist hops)

end Plan.WellScoped

/-! ## Statements -/

/-- The paths of a request share the joins of a plan by their routes. -/
structure Plan.Shares (p : Plan) (catalog : Catalog) (r : Request) (hops : List Hop) : Prop where
  joins : p.joins = hops.flatMap Hop.joins
  /-- The hops lead along the relationships of a route to its table. -/
  along : ∀ names ∈ routes r, ∃ steps final,
    ColumnPath.walk catalog r.collection [] names = .ok (steps, final) ∧
      Chain hops 0 steps (tableOf hops names)
  /-- A column is in the table that its path leads to, but for the last segment. -/
  columns : ∀ path c, (path, c) ∈ (references r).zip p.columns →
    c.table = tableOf hops (ColumnPath.segments path).dropLast
  /-- Routes end at different tables. -/
  apart : ∀ names ∈ routes r, ∀ names' ∈ routes r,
    tableOf hops names = tableOf hops names' → names = names'
  /-- There is one hop for each route. -/
  count : hops.length = (routes r).toFinset.card

section Statement

variable {catalog : Catalog} {limit : Nat} {r : Request} {d : Dialect} {p : Plan} {hops : List Hop}
  {names names' : List String}

theorem Plan.WellScoped.shares (hp : p.WellScoped catalog limit r d hops) :
    p.Shares catalog r hops where
  joins := hp.joins
  along names hroute := by
    obtain ⟨steps, final, hwalk, hchain, -⟩ := hp.exists_hop_of_route hroute
    exact ⟨steps, final, hwalk, hchain⟩
  columns path c huse := by
    obtain ⟨steps, final, hwalk, hchain⟩ := hp.chain_of_reference huse
    by_cases hne : (ColumnPath.segments path).dropLast = []
    · rw [(ColumnPath.steps_eq_nil_iff hwalk).2 hne] at hchain
      rw [tableOf, if_pos hne]
      exact hchain.eq_of_nil
    · have hdots : ∀ name ∈ (ColumnPath.segments path).dropLast, '.' ∉ name.toList :=
        fun name hname => ColumnPath.not_mem_of_mem_segments (List.dropLast_subset _ hname)
      exact (hp.exists_hop_of_chain hne hdots hwalk hchain).2.symm
  apart names hroute names' hroute' htable := by
    obtain ⟨-, -, -, -, h, hmem, rfl⟩ := hp.exists_hop_of_route hroute
    obtain ⟨-, -, -, -, h', hmem', rfl⟩ := hp.exists_hop_of_route hroute'
    rw [hp.tableOf_names hmem, hp.tableOf_names hmem'] at htable
    rw [List.inj_on_of_nodup_map hp.nodup_last hmem hmem' htable]
  count := by
    have hnodup : (hops.map Hop.names).Nodup :=
      hp.nodup_last.of_map.map_on fun h hmem h' hmem' => hp.eq_of_names hmem hmem'
    have hroutes : (hops.map Hop.names).toFinset = (routes r).toFinset := by
      ext names
      rw [List.mem_toFinset, List.mem_toFinset, List.mem_map]
      constructor
      · rintro ⟨h, hmem, rfl⟩
        exact (hp.names_mem_routes hmem).1
      · intro hroute
        obtain ⟨-, -, -, -, hhop⟩ := hp.exists_hop_of_route hroute
        exact hhop
    rw [← hroutes, List.toFinset_card_of_nodup hnodup, List.length_map]

theorem Plan.Shares.relationships_eq_iff (hp : p.Shares catalog r hops) (hroute : names ∈ routes r)
    (hroute' : names' ∈ routes r) :
    ColumnPath.relationships catalog r.collection names =
      ColumnPath.relationships catalog r.collection names' ↔ ColumnPath.SameNames names names' := by
  obtain ⟨steps, final, hwalk, -⟩ := hp.along names hroute
  obtain ⟨steps', final', hwalk', -⟩ := hp.along names' hroute'
  rw [ColumnPath.relationships_of_walk hwalk, ColumnPath.relationships_of_walk hwalk',
    Option.some.injEq, ColumnPath.relationships_of_walk_eq_iff hwalk hwalk']

end Statement

/-- The sequences of relationships that the routes of a request lead along. -/
def relationshipRoutes (catalog : Catalog) (r : Request) : Finset (Option (List Relationship)) :=
  (routes r).toFinset.image (ColumnPath.relationships catalog r.collection)

/-- In every compiled statement the paths share their joins by their routes. Two
routes lead along the same relationships exactly if they differ in case alone,
and there are as many hops as sequences of relationships exactly if no two
routes differ so. -/
theorem compile_shares_by_route (catalog : Catalog) (config : Config) (d : Dialect) (r : Request)
    (st : Statement) (h : compile catalog config d r = .ok st) :
    ∃ p hops, plan catalog config r = .ok p ∧ st = p.statement d config.markerStyle ∧
      p.Shares catalog r hops ∧
      (∀ names ∈ routes r, ∀ names' ∈ routes r,
        ColumnPath.relationships catalog r.collection names =
          ColumnPath.relationships catalog r.collection names' ↔
            ColumnPath.SameNames names names') ∧
      (hops.length = (relationshipRoutes catalog r).card ↔
        ∀ names ∈ routes r, ∀ names' ∈ routes r, ColumnPath.SameNames names names' →
          names = names') := by
  obtain ⟨p, hplan, rfl⟩ := map_eq_ok_iff.1 h
  obtain ⟨plain, es, p₁, p₂, p₃, p₄, f, hcourse⟩ := plan_course hplan
  obtain ⟨hops, hscoped, -⟩ := hcourse.wellScoped (plan_ok hplan).2 d
  have hshares := hscoped.shares
  have halike : ∀ names ∈ routes r, ∀ names' ∈ routes r, _ :=
    fun names hroute names' hroute' => hshares.relationships_eq_iff hroute hroute'
  refine ⟨p, hops, hplan, rfl, hshares, halike, ?_⟩
  rw [hshares.count, relationshipRoutes, eq_comm, Finset.card_image_iff]
  constructor
  · intro hinj names hroute names' hroute' hsame
    exact hinj (List.mem_toFinset.2 hroute) (List.mem_toFinset.2 hroute')
      ((halike names hroute names' hroute').2 hsame)
  · intro hsame names hnames names' hnames' heq
    have hroute := List.mem_toFinset.1 hnames
    have hroute' := List.mem_toFinset.1 hnames'
    exact hsame names hroute names' hroute' ((halike names hroute names' hroute').1 heq)

/-- The customers for which the columns of all these paths are equal to `1`. -/
def customersWith (paths : List String) : Request where
  collection := Catalog.Sample.customers
  filters := paths.map fun path => .call "eq" [.word path, .word "1"]
  page := .none
  after := none
  sorts := []
  groups := []
  includes := []
  computed := []
  distinct := false
  rowCount := false

/-- The joined tables of a plan with the tables that they are joined to, and the
tables of its columns. -/
def Plan.outline (p : Plan) : List (String × Nat × Nat) × List Nat :=
  (p.joins.map fun j => (j.table, j.source, j.index), p.columns.map Column.table)

theorem exists_compile_of_outline {catalog : Catalog} {config : Config} {r : Request} (d : Dialect)
    {outline : List (String × Nat × Nat) × List Nat}
    (h : (plan catalog config r).toOption.map Plan.outline = some outline) :
    ∃ p, plan catalog config r = .ok p ∧ p.outline = outline ∧
      compile catalog config d r = .ok (p.statement d config.markerStyle) := by
  obtain ⟨p, hp, houtline⟩ := Option.map_eq_some_iff.1 h
  have hplan := eq_ok_of_toOption hp
  refine ⟨p, hplan, houtline, ?_⟩
  rw [compile, hplan]
  rfl

/-- Tests of orders and of their details. -/
def detailedOrders : Request :=
  customersWith ["orders.freight", "orders.orderDetails.quantity", "orders.shipCity"]

/-- Tests of orders, which are written in two ways. -/
def casedOrders : Request := customersWith ["orders.freight", "Orders.shipCity"]

/-- Orders and their details are joined once, and all tests of orders are about the same ones. -/
theorem compile_shares_by_route_detailed_orders : ∃ (st : Statement) (p : Plan) (hops : List Hop),
    compile Catalog.Sample.northwind .standard .postgres detailedOrders = .ok st ∧
    plan Catalog.Sample.northwind .standard detailedOrders = .ok p ∧
    p.outline = ([("Orders", 0, 1), ("OrderDetails", 1, 2)], [1, 2, 1]) ∧
    p.Shares Catalog.Sample.northwind detailedOrders hops ∧
    hops.length = (relationshipRoutes Catalog.Sample.northwind detailedOrders).card := by
  have heval : (plan Catalog.Sample.northwind .standard detailedOrders).toOption.map Plan.outline =
      some ([("Orders", 0, 1), ("OrderDetails", 1, 2)], [1, 2, 1]) := by
    decide +kernel
  obtain ⟨p, hplan, houtline, hcompile⟩ := exists_compile_of_outline .postgres heval
  obtain ⟨p', hops, hplan', -, hshares, -, hcount⟩ :=
    compile_shares_by_route Catalog.Sample.northwind .standard .postgres detailedOrders _ hcompile
  obtain rfl := Except.ok.inj (hplan.symm.trans hplan')
  exact ⟨_, p, hops, hcompile, hplan, houtline, hshares, hcount.2 (by decide +kernel)⟩

/-- The orders are joined twice if they are written in two ways, though both
ways lead along the same relationship, and the tests may then be passed by
different orders. -/
theorem compile_joins_cased_orders_twice : ∃ (st : Statement) (p : Plan),
    compile Catalog.Sample.northwind .standard .postgres casedOrders = .ok st ∧
    plan Catalog.Sample.northwind .standard casedOrders = .ok p ∧
    p.outline = ([("Orders", 0, 1), ("Orders", 0, 2)], [1, 2]) ∧
    routes casedOrders = [["orders"], ["Orders"]] ∧
    (relationshipRoutes Catalog.Sample.northwind casedOrders).card = 1 := by
  have heval : (plan Catalog.Sample.northwind .standard casedOrders).toOption.map Plan.outline =
      some ([("Orders", 0, 1), ("Orders", 0, 2)], [1, 2]) := by
    decide +kernel
  obtain ⟨p, hplan, houtline, hcompile⟩ := exists_compile_of_outline .postgres heval
  exact ⟨_, p, hcompile, hplan, houtline, by decide +kernel, by decide +kernel⟩

end Sql
end ResourceQuery
