import ResourceQuery.Proofs.Document.Filters

set_option autoImplicit false

/-!
# Document queries: markers and parameters

The markers of a document query, read from left to right, are numbered in the
order in which their values were bound.  A query that counts rows has those of
the filter.

A plan is compiled part by part, and each part issues its own markers.
`Plan.Course` keeps how this came about; the markers in the text follow from it,
since the text has the parts in the order of their compilation.
-/

namespace ResourceQuery.Document

open FilterText

/-! ## The forms of a document query -/

theorem dialog_fits (root : Collection) : (dialog root).Fits True Unmarked where
  deciding _ := trivial
  test := by
    intro op c path text p p' q h
    obtain ⟨value, k, _, htested⟩ := TextFunctions.test_ok h
    exact htested.elementary.fits
  unlike := by
    intro q h
    cases q with
    | text test negated c k => exact .text test (!negated) c k
    | _ => exact .negation h
  outside c markers := .membership true c markers
  blankness := by
    intro isBlank c path p p' q h
    obtain ⟨rfl, rfl⟩ := Build.pure_ok_iff.1 h
    exact .blankness isBlank c rfl

theorem unmarked_star : Dialog.Unmarked star := by
  intro inside t e h
  rw [(Expression.ofStar_eq_some h).1]
  rfl

/-- A star in a computed column is written as a numeral, so it binds nothing. -/
theorem fits_star {inside : Bool} {t : Term} {e : Expression Column}
    (h : star inside t = some e) : e.Fits True Unmarked := by
  rw [(Expression.ofStar_eq_some h).1]
  exact .numeral (by decide)

theorem markers_columnPieces (c : Column) : Piece.markers (columnPieces c) = [] := by
  rw [columnPieces, Piece.markers_fixed]
  induction c with
  | nil => rfl
  | cons s c ih => rw [List.flatMap_cons, Piece.markers_append, ih]; rfl

/-- The phrases of the target write down the markers they are given, and no others. -/
theorem phrasing_faithful : phrasing.Faithful Unmarked where
  column := markers_columnPieces
  nullity isNull column h := by
    cases isNull <;> simp [phrasing, Predicate.enclosed, absent, present, h]
  blankness isBlank column marker hmarker h := by
    subst hmarker
    cases isBlank <;> simp [phrasing, Predicate.enclosed, absent, present, h]
  text := functions.markers_pieces

/-- The markers of a plan in the order of its text, each with its column. -/
def Plan.slots (p : Plan) : List (Column × Nat) :=
  p.items.flatMap (fun item => item.1.slots) ++ p.filters.flatMap Predicate.slots

/-- The conditions and expressions of a plan are those of the document target. -/
structure Plan.Fits (p : Plan) : Prop where
  items : ∀ item ∈ p.items, item.1.Fits True Unmarked
  filters : ∀ q ∈ p.filters, q.Fits True Unmarked

/-! ## Plans -/

/-- There is nothing beside the values. -/
theorem eq_of_values_eq {p p' : Progress Unit} (h : p'.values = p.values) : p' = p := by
  cases p
  cases p'
  cases h
  rfl

theorem values_eq_of_orders {root : Collection} (r : Request) {sorts : List SortKey} :
    ∀ {p p' : Progress Unit} {os : List (Column × Bool)},
      orders (dialog root) r sorts p = .ok (os, p') → p'.values = p.values := by
  induction sorts with
  | nil =>
    intro p p' os h
    obtain ⟨_, rfl⟩ := Build.pure_ok_iff.1 h
    rfl
  | cons sort sorts ih =>
    intro p p' os h
    rw [orders] at h
    split at h
    · obtain ⟨_, _, hthrow, _⟩ := Build.bind_ok_iff.1 h
      exact absurd hthrow Build.throw_ne_ok
    · obtain ⟨⟨column, property⟩, p₁, hresolve, h⟩ := Build.bind_ok_iff.1 h
      obtain ⟨rest, hrest, _⟩ := Build.bind_pure_ok_iff.1 h
      rw [ih hrest, (resolve_ok hresolve).2]

/-- The columns of the result: those asked for by name, then the computed ones. -/
def planItems (plain : List (String × Column × Property))
    (computed : List (Computed × Expression Column)) : List (Expression Column × Option String) :=
  plain.map (fun column => (.column column.2.1, none)) ++
    computed.map fun c => (c.2, if c.1.isAnonymous then none else some c.1.label.token)

theorem slots_planItems (plain : List (String × Column × Property))
    (computed : List (Computed × Expression Column)) :
    (planItems plain computed).flatMap (fun item => item.1.slots) =
      computed.flatMap fun e => e.2.slots := by
  have hplain : (plain.map fun column =>
      (Expression.column column.2.1, (none : Option String))).flatMap
        (fun item => item.1.slots) = [] := by
    rw [List.flatMap_map]
    exact List.flatMap_eq_nil_iff.2 fun _ _ => rfl
  rw [planItems, List.flatMap_append, hplain, List.nil_append, List.flatMap_map]

/-- How a plan comes about: its parts are compiled in the order in which they
stand in the query, and behind the filter no value is bound. -/
structure Plan.Course (p : Plan) (r : Request) (plain : List (String × Column × Property))
    (es : List (Computed × Expression Column)) (p₁ p₂ f : Progress Unit) : Prop where
  selected : (dialog r.collection).columns r.plainColumns ⟨[], ()⟩ = .ok (plain, p₁)
  computed : (dialog r.collection).computed star r.computed p₁ = .ok (es, p₂)
  filtered : (dialog r.collection).predicates r.filters p₂ = .ok (p.filters, f)
  grouped : (dialog r.collection).groups r.groups f = .ok (p.groups, f)
  ordered : Document.orders (dialog r.collection) r r.sorts f = .ok (p.orders, f)
  items : p.items = planItems plain es

theorem plan_course {r : Request} {p : Plan} {f : Progress Unit}
    (h : plan (dialog r.collection) r ⟨[], ()⟩ = .ok (p, f)) :
    ∃ plain es p₁ p₂, p.Course r plain es p₁ p₂ f := by
  unfold plan at h
  obtain ⟨plain, p₁, hplain, h⟩ := Build.bind_ok_iff.1 h
  obtain ⟨es, p₂, hcomputed, h⟩ := Build.bind_ok_iff.1 h
  obtain ⟨filters, p₃, hfilters, h⟩ := Build.bind_ok_iff.1 h
  obtain ⟨groups, p₄, hgroups, h⟩ := Build.bind_ok_iff.1 h
  obtain ⟨os, horders, rfl⟩ := Build.bind_pure_ok_iff.1 h
  obtain rfl : p₄ = p₃ :=
    eq_of_values_eq (Dialog.values_eq_of_groups (dialog_issues r.collection) hgroups)
  obtain rfl : f = p₄ := eq_of_values_eq (values_eq_of_orders r horders)
  exact ⟨plain, es, p₁, p₂, hplain, hcomputed, hfilters, hgroups, horders, rfl⟩

/-- A plan issues its markers, from the first value on, and its filter comes behind its items. -/
theorem plan_ok {r : Request} {p : Plan} {f : Progress Unit}
    (h : plan (dialog r.collection) r ⟨[], ()⟩ = .ok (p, f)) :
    Numbered (fun _ _ => True) 0 p.slots f.values ∧ p.Fits ∧
      ∃ p₁, (dialog r.collection).predicates r.filters p₁ = .ok (p.filters, f) ∧
        p₁.values.length = (p.items.flatMap fun item => item.1.slots).length := by
  have hissues := dialog_issues r.collection
  have hfits := dialog_fits r.collection
  obtain ⟨plain, es, p₁, p₂, hcourse⟩ := plan_course h
  have hitems := Issued.after (Dialog.values_eq_of_columns hissues hcourse.selected)
    (Dialog.issued_computed hissues unmarked_star hcourse.computed)
  obtain ⟨bound, hbound, hnumbered⟩ :=
    hitems.trans (Dialog.issued_predicates hissues hcourse.filtered)
  obtain ⟨first, hfirst, hfirstNumbered⟩ := hitems
  refine ⟨?_, ⟨?_, Dialog.fits_predicates hfits hcourse.filtered⟩, p₂, hcourse.filtered, ?_⟩
  · rw [Plan.slots, hcourse.items, slots_planItems, hbound]
    exact hnumbered
  · intro item hitem
    rw [hcourse.items] at hitem
    rcases List.mem_append.1 hitem with hitem | hitem
    · obtain ⟨column, _, rfl⟩ := List.mem_map.1 hitem
      exact .column _
    · obtain ⟨column, hcolumn, rfl⟩ := List.mem_map.1 hitem
      exact Dialog.fits_computed hfits fits_star hcourse.computed column hcolumn
  · have hlength := congrArg List.length hfirstNumbered.numbers_eq
    rw [List.length_map, List.length_range'] at hlength
    rw [hcourse.items, slots_planItems, hlength, hfirst]
    rfl

/-! ## The markers of a query -/

/-- The pieces before the filter. -/
def Plan.front (p : Plan) (distinct : Bool) : List Piece :=
  .fixed (if distinct then "SELECT DISTINCT " else "SELECT ") ::
    (if p.items.isEmpty then [.fixed "*"] else Piece.join ", " (p.items.map itemPieces)) ++
    [.fixed " FROM c"]

/-- The pieces behind the filter. -/
def Plan.back (p : Plan) (window : Window) : List Piece :=
  Piece.clause " GROUP BY " ", " (p.groups.map columnPieces) ++
    Piece.clause " ORDER BY " ", " (p.orders.map fun (column, ascending) =>
      columnPieces column ++ [.fixed (if ascending then " ASC" else " DESC")]) ++
    [.fixed " OFFSET ", .numeral (toString window.offset.toNat), .fixed " LIMIT ",
      .numeral (toString window.limit.toNat)]

theorem pieces_eq_front_back (p : Plan) (distinct : Bool) (window : Window) :
    p.pieces distinct window = p.front distinct ++ (p.wherePieces ++ p.back window) := by
  simp [Plan.pieces, Plan.front, Plan.back]

theorem markers_item {item : Expression Column × Option String} (h : item.1.Fits True Unmarked) :
    Piece.markers (itemPieces item) = item.1.slots.map Prod.snd := by
  obtain ⟨e, label⟩ := item
  unfold itemPieces
  rw [Piece.markers_append, Expression.markers_pieces phrasing_faithful .conditional h]
  cases label with
  | none => exact List.append_nil _
  | some label => exact List.append_nil _

theorem markers_front {p : Plan} (h : p.Fits) (distinct : Bool) :
    Piece.markers (p.front distinct) = (p.items.flatMap fun item => item.1.slots).map Prod.snd := by
  have hitems : (p.items.map itemPieces).flatMap Piece.markers =
      (p.items.flatMap fun item => item.1.slots).map Prod.snd := by
    rw [List.flatMap_map, List.map_flatMap, List.flatMap_def, List.flatMap_def,
      List.map_congr_left fun item hitem => markers_item (h.items item hitem)]
  unfold Plan.front
  rw [Piece.markers_append, Piece.markers_fixed]
  split
  · next hempty => rw [List.isEmpty_iff.1 hempty]; rfl
  · rw [Piece.markers_join, hitems]
    exact List.append_nil _

theorem markers_wherePieces {p : Plan} (h : p.Fits) :
    Piece.markers p.wherePieces = (p.filters.flatMap Predicate.slots).map Prod.snd := by
  rw [Plan.wherePieces, Piece.markers_clause]
  exact Predicate.flatMap_markers_eq fun q hq =>
    Predicate.markers_pieces phrasing_faithful (h.filters q hq)

/-- Behind the filter no marker is written. -/
theorem markers_back (p : Plan) (window : Window) : Piece.markers (p.back window) = [] := by
  have hgroups : (p.groups.map columnPieces).flatMap Piece.markers = [] := by
    rw [List.flatMap_map]
    exact List.flatMap_eq_nil_iff.2 fun c _ => markers_columnPieces c
  have horders : (p.orders.map fun (column, ascending) =>
      columnPieces column ++ [.fixed (if ascending then " ASC" else " DESC")]).flatMap
        Piece.markers = [] := by
    rw [List.flatMap_map]
    refine List.flatMap_eq_nil_iff.2 fun order _ => ?_
    rw [Piece.markers_append, markers_columnPieces]
    rfl
  unfold Plan.back
  rw [Piece.markers_append, Piece.markers_append, Piece.markers_clause, Piece.markers_clause,
    hgroups, horders]
  rfl

/-- What a query is made of. -/
theorem compile_ok {config : Config} {r : Request} {q : Query} (h : compile config r = .ok q) :
    ∃ p f, plan (dialog r.collection) r ⟨[], ()⟩ = .ok (p, f) ∧
      q.query = Piece.textAll spelling (p.pieces r.distinct q.window) ∧
      q.parameters = parameters f.values ∧ q.values = f.values ∧
      q.countQuery = if r.rowCount then some (Piece.textAll spelling p.countPieces) else none := by
  unfold compile at h
  obtain ⟨⟨p, f⟩, hplan, h⟩ := bind_eq_ok_iff.1 h
  obtain ⟨_, _, h⟩ := bind_eq_ok_iff.1 h
  obtain rfl := pure_eq_ok_iff.1 h
  exact ⟨p, f, hplan, rfl, rfl, rfl, rfl⟩

end ResourceQuery.Document
