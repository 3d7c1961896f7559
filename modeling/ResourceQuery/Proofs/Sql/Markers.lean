import ResourceQuery.Proofs.Sql.Reading

set_option autoImplicit false

/-!
# SQL: markers line up with values

The markers that are met in a compiled statement are as many as its values, in
the order of the values, and the value in the place of a marker was bound for
the column that the marker is compared with.  The statement that counts the rows
has the same markers.

Two readings of the plan are put side by side.  The slots of a plan are its
markers with their columns, in the order in which they were issued; the pieces
of a plan are legible, so the reader of statements meets the same markers in the
text.  Neither looks at how the other is made.
-/

namespace ResourceQuery.Sql

/-! ## The relational target issues its markers -/

/-- The path leads to a column of this name. -/
def Leads (catalog : Catalog) (root : Collection) (limit : Nat) (c : Column) (path : String) :
    Prop :=
  ∃ resolved, ColumnPath.follow catalog root limit path = .ok resolved ∧
    c.name = resolved.property.columnName

section Dialog

variable (catalog : Catalog) (root : Collection) (limit : Nat)

/-- How a column is found: its path is followed, and the tables on the way are
joined unless they were before. -/
theorem resolve_run {path : String} {p p' : Progress Scope} {c : Column} {property : Property}
    (h : resolve catalog root limit path p = .ok ((c, property), p')) :
    ∃ resolved scope, ColumnPath.follow catalog root limit path = .ok resolved ∧
      p.scope.reachAll 0 resolved.steps = .ok (c.table, scope) ∧
      c.name = resolved.property.columnName ∧ property = resolved.property ∧
      p' = { p with scope } := by
  unfold resolve at h
  obtain ⟨resolved, hfollow, h⟩ := Build.lookup_bind_ok_iff.1 h
  obtain ⟨q, q', hget, h⟩ := Build.bind_ok_iff.1 h
  cases hget
  obtain ⟨⟨table, scope⟩, hreach, h⟩ := Build.lookup_bind_ok_iff.1 h
  obtain ⟨_, q'', hset, h⟩ := Build.bind_ok_iff.1 h
  cases hset
  obtain ⟨hcolumn, rfl⟩ := Build.pure_ok_iff.1 h
  cases hcolumn
  exact ⟨resolved, scope, hfollow, hreach, rfl, rfl, rfl⟩

theorem resolve_ok {path : String} {p p' : Progress Scope} {c : Column} {property : Property}
    (h : resolve catalog root limit path p = .ok ((c, property), p')) :
    Leads catalog root limit c path ∧ p'.values = p.values := by
  obtain ⟨resolved, scope, hfollow, _, hname, _, rfl⟩ := resolve_run catalog root limit h
  exact ⟨⟨resolved, hfollow, hname⟩, rfl⟩

/-- A text test binds the pattern of its operator. -/
theorem test_ok {op : TextOperator} {c : Column} {path text : String} {p p' : Progress Scope}
    {q : Predicate Column} (h : test op c path text p = .ok (q, p')) :
    ∃ marker, .text .pattern (op = .lacks) c marker = q ∧
      (Build.bind path (.text (Pattern.like op text)) : Build Scope Nat) p = .ok (marker, p') := by
  unfold test at h
  obtain ⟨marker, hbind, rfl⟩ := Build.bind_pure_ok_iff.1 h
  exact ⟨marker, rfl, hbind⟩

/-- Every step of a relational target issues the markers of what it gives. -/
theorem dialog_issues :
    (dialog catalog root limit).Issues (Leads catalog root limit) where
  resolve h := resolve_ok catalog root limit h
  test := by
    intro op c path text p p' q hname h
    obtain ⟨marker, rfl, hbind⟩ := test_ok h
    rw [Predicate.slots]
    exact Build.issued_bind hname hbind
  unlike := by
    intro q
    cases q <;> rfl
  outside c markers := rfl
  blankness := by
    intro isBlank c path p p' q hname h
    obtain ⟨rfl, rfl⟩ := Build.pure_ok_iff.1 h
    exact .of_values_eq rfl

/-- A relational target has no conditional expressions among its predicates, and
tests for emptiness without a marker. -/
theorem dialog_fits : (dialog catalog root limit).Fits False (· = none) where
  deciding h := by cases h
  test := by
    intro op c path text p p' q h
    obtain ⟨marker, rfl, _⟩ := test_ok h
    exact .text _ _ c marker
  unlike := by
    intro q h
    cases q with
    | text test negated column marker => exact .text test (!negated) column marker
    | _ => exact .negation h
  outside c markers := .membership true c markers
  blankness := by
    intro isBlank c path p p' q h
    obtain ⟨rfl, rfl⟩ := Build.pure_ok_iff.1 h
    exact .blankness isBlank c rfl

end Dialog

theorem unmarked_star : Dialog.Unmarked star := by
  intro inside t e h
  rw [(Expression.ofStar_eq_some h).1]
  rfl

theorem fits_star {inside : Bool} {t : Term} {e : Expression Column}
    (h : star inside t = some e) : e.Fits False (· = none) := by
  rw [(Expression.ofStar_eq_some h).1]
  exact .everything

/-- The columns that rows are ordered by bind nothing. -/
theorem values_eq_of_orders {d : Dialog Scope Column} {names : Column → String → Prop}
    (hd : d.Issues names) (r : Request) {sorts : List SortKey} :
    ∀ {p p' : Progress Scope} {os : List (OrderBy × Bool)},
      orders d r sorts p = .ok (os, p') → p'.values = p.values := by
  induction sorts with
  | nil =>
    intro p p' os h
    obtain ⟨_, rfl⟩ := Build.pure_ok_iff.1 h
    rfl
  | cons sort sorts ih =>
    intro p p' os h
    rw [orders] at h
    split at h
    · obtain ⟨by_, p₁, hby, h⟩ := Build.bind_ok_iff.1 h
      obtain ⟨_, rfl⟩ := Build.pure_ok_iff.1 hby
      obtain ⟨rest, hrest, _⟩ := Build.bind_pure_ok_iff.1 h
      exact ih hrest
    · obtain ⟨⟨column, property⟩, p₁, hresolve, h⟩ := Build.bind_ok_iff.1 h
      obtain ⟨by_, p₂, hby, h⟩ := Build.bind_ok_iff.1 h
      obtain ⟨_, rfl⟩ := Build.pure_ok_iff.1 hby
      obtain ⟨rest, hrest, _⟩ := Build.bind_pure_ok_iff.1 h
      rw [ih hrest, (hd.resolve hresolve).2]

/-- The markers of a plan in the order of its text, each with its column. -/
def Plan.slots (p : Plan) : List (Column × Nat) :=
  p.items.flatMap (fun item => item.expression.slots) ++ p.filters.flatMap Predicate.slots

/-- The conditions and expressions of a plan are those of a relational target. -/
structure Plan.Fits (p : Plan) : Prop where
  items : ∀ item ∈ p.items, item.expression.Fits False (· = none)
  filters : ∀ q ∈ p.filters, q.Fits False (· = none)

/-- The columns of the result: those asked for by name, then the computed ones. -/
def planItems (plain : List (String × Column × Property))
    (computed : List (Computed × Expression Column)) : List Item :=
  plain.map (fun c => plainItem c.1 c.2.1 c.2.2) ++ computed.map fun c => computedItem c.1 c.2

/-- Among the columns of the result only computed ones have markers. -/
theorem slots_planItems (plain : List (String × Column × Property))
    (computed : List (Computed × Expression Column)) :
    (planItems plain computed).flatMap (fun item => item.expression.slots) =
      computed.flatMap fun e => e.2.slots := by
  have hplain : (plain.map fun c => plainItem c.1 c.2.1 c.2.2).flatMap
      (fun item => item.expression.slots) = [] := by
    rw [List.flatMap_map]
    exact List.flatMap_eq_nil_iff.2 fun _ _ => rfl
  rw [planItems, List.flatMap_append, hplain, List.nil_append, List.flatMap_map]
  rfl

/-- How a plan comes about: its parts are compiled in the order in which they
stand in the statement. -/
structure Plan.Course (pl : Plan) (d : Dialog Scope Column) (r : Request)
    (plain : List (String × Column × Property)) (es : List (Computed × Expression Column))
    (p₁ p₂ p₃ p₄ f : Progress Scope) : Prop where
  selected : d.columns r.plainColumns ⟨[], .start⟩ = .ok (plain, p₁)
  computed : d.computed star r.computed p₁ = .ok (es, p₂)
  filtered : d.predicates r.filters p₂ = .ok (pl.filters, p₃)
  grouped : d.groups r.groups p₃ = .ok (pl.groups, p₄)
  ordered : Sql.orders d r r.sorts p₄ = .ok (pl.orders, f)
  whole : ∃ found, parts d r ⟨[], .start⟩ = .ok (found, f)
  items : pl.items = planItems plain es
  joins : pl.joins = f.scope.joins
  distinct : pl.distinct = (r.distinct || (f.scope.toMany && r.groups.isEmpty))
  values : pl.values = f.values

/-- Every plan comes about in this way. -/
theorem plan_course {catalog : Catalog} {config : Config} {r : Request} {pl : Plan}
    (h : plan catalog config r = .ok pl) : ∃ plain computed p₁ p₂ p₃ p₄ f,
      pl.Course (dialog catalog r.collection config.maxRelationshipDepth.toNat) r plain computed
        p₁ p₂ p₃ p₄ f := by
  unfold plan at h
  split at h
  · obtain ⟨_, hthrow, _⟩ := bind_eq_ok_iff.1 h
    cases hthrow
  · obtain ⟨⟨found, f⟩, hrun, h⟩ := bind_eq_ok_iff.1 h
    have hparts := hrun
    unfold parts at hparts
    obtain ⟨plain, p₁, hplain, hparts⟩ := Build.bind_ok_iff.1 hparts
    obtain ⟨computed, p₂, hcomputed, hparts⟩ := Build.bind_ok_iff.1 hparts
    obtain ⟨filters, p₃, hfilters, hparts⟩ := Build.bind_ok_iff.1 hparts
    obtain ⟨groups, p₄, hgroups, hparts⟩ := Build.bind_ok_iff.1 hparts
    obtain ⟨os, horders, rfl⟩ := Build.bind_pure_ok_iff.1 hparts
    obtain rfl := pure_eq_ok_iff.1 h
    exact ⟨plain, computed, p₁, p₂, p₃, p₄, f, hplain, hcomputed, hfilters, hgroups, horders,
      ⟨_, hrun⟩, rfl, rfl, rfl, rfl⟩

/-- A plan issues its markers, from the first value on. -/
theorem plan_ok {catalog : Catalog} {config : Config} {r : Request} {p : Plan}
    (h : plan catalog config r = .ok p) :
    Numbered (Leads catalog r.collection config.maxRelationshipDepth.toNat) 0 p.slots p.values ∧
      p.Fits := by
  have hissues := dialog_issues catalog r.collection config.maxRelationshipDepth.toNat
  have hfits := dialog_fits catalog r.collection config.maxRelationshipDepth.toNat
  obtain ⟨plain, computed, p₁, p₂, p₃, p₄, f, hcourse⟩ := plan_course h
  have hexpressions := Dialog.issued_computed hissues unmarked_star hcourse.computed
  have hitems := Issued.after (Dialog.values_eq_of_columns hissues hcourse.selected) hexpressions
  obtain ⟨bound, hbound, hnumbered⟩ :=
    hitems.trans (Dialog.issued_predicates hissues hcourse.filtered)
  have hvalues : p.values = bound := by
    rw [hcourse.values, values_eq_of_orders hissues r hcourse.ordered,
      Dialog.values_eq_of_groups hissues hcourse.grouped, hbound]
    rfl
  refine ⟨?_, ?_, Dialog.fits_predicates hfits hcourse.filtered⟩
  · rw [Plan.slots, hcourse.items, slots_planItems, hvalues]
    exact hnumbered
  · intro item hitem
    rw [hcourse.items] at hitem
    rcases List.mem_append.1 hitem with hitem | hitem
    · obtain ⟨column, _, rfl⟩ := List.mem_map.1 hitem
      exact .column _
    · obtain ⟨column, hcolumn, rfl⟩ := List.mem_map.1 hitem
      exact Dialog.fits_computed hfits fits_star hcourse.computed column hcolumn

/-! ## The pieces of a plan are legible -/

section Legible

variable {d : Dialect} {style : MarkerStyle}

/-- The phrases of a dialect write down the markers they are given, and no others. -/
theorem phrasing_faithful (d : Dialect) : (phrasing d).Faithful (· = none) where
  column _ := rfl
  nullity isNull column h := by simp [phrasing, h]
  blankness isBlank column marker hmarker h := by
    subst hmarker
    cases isBlank <;> simp [phrasing, h]
  text test negated column marker h := by simp [phrasing, h]

theorem legible_column (c : Column) : Legible d style c.pieces :=
  .table c.table (.quiet (by decide) (.name c.name))

/-- The reader passes over the declaration of an escape character. -/
theorem legible_escapeSuffix : Legible d style [.fixed (escapeSuffix d)] := by
  have hnone : Legible d style [.fixed ""] := Legible.inert rfl (by simp [Piece.text]) .nil
  have hescape : Legible d style [.fixed " ESCAPE '\\'"] :=
    .literal " ESCAPE ".toList ['\\'] [] (by decide) (by decide) (by decide) (by decide)
  cases d with
  | postgres => exact hnone
  | mysql => exact hnone
  | h2 => exact hnone
  | sqlite => exact hescape
  | sqlserver => exact hescape

theorem guarded_escapeSuffix : Guarded d style [.fixed (escapeSuffix d)] := by
  have hnone : Guarded d style [.fixed ""] := by
    intro rest hrest
    exact hrest
  cases d with
  | postgres => exact hnone
  | mysql => exact hnone
  | h2 => exact hnone
  | sqlite => exact .starts (by decide) _
  | sqlserver => exact .starts (by decide) _

/-- A column, a comparison with a marker and perhaps something fixed. -/
theorem legible_comparison {sign : String} (hsign : IsQuiet sign) (c : Column) (marker : Nat)
    {tail : List Piece} (htail : Legible d style tail) (hguard : Guarded d style tail) :
    Legible d style (c.pieces ++ .fixed sign :: .marker marker :: tail) :=
  (legible_column c).between hsign ((Legible.marker marker).append htail hguard)

theorem isQuiet_sign (op : Comparison) {sign : String} (h : op.sign "<>" = sign) :
    IsQuiet s!" {sign} " := by
  subst h
  cases op <;> decide

theorem legible_enclosed {ps : List Piece} (h : Legible d style ps) :
    Legible d style (Predicate.enclosed ps) :=
  .quiet (by decide) (h.between (by decide) .nil)

/-- A test for emptiness: the column is null or it is compared with the empty literal. -/
theorem legible_blankness (isBlank : Bool) (c : Column) :
    Legible d style ((phrasing d).blankness isBlank c.pieces none) := by
  have hc : Legible d style c.pieces := legible_column c
  cases isBlank with
  | true =>
    have hliteral : Legible d style [.fixed " = '')"] :=
      .literal " = ".toList [] [')'] (by decide) (by decide) (by decide) (by decide)
    refine .quiet (by decide) (hc.between (by decide) ?_)
    exact hc.append hliteral (.starts (by decide) _)
  | false =>
    have hliteral : Legible d style [.fixed " <> '')"] :=
      .literal " <> ".toList [] [')'] (by decide) (by decide) (by decide) (by decide)
    refine .quiet (by decide) (hc.between (by decide) ?_)
    exact hc.append hliteral (.starts (by decide) _)

/-- The predicates of a relational target are legible. -/
theorem legible_predicate {q : Predicate Column} (h : q.Fits False (· = none)) :
    Legible d style (q.pieces (phrasing d)) := by
  have hparts : ∀ {parts : List (Predicate Column)},
      (∀ q ∈ parts, Legible d style (q.pieces (phrasing d))) →
      ∀ part ∈ Predicate.piecesAll (phrasing d) parts, Legible d style part := by
    intro parts ih part hpart
    rw [Predicate.piecesAll_eq_map] at hpart
    obtain ⟨q, hq, rfl⟩ := List.mem_map.1 hpart
    exact ih q hq
  induction h with
  | all _ ih =>
    rw [Predicate.pieces]
    exact legible_enclosed (.join (by decide) (hparts ih))
  | any _ ih =>
    rw [Predicate.pieces]
    exact legible_enclosed (.join (by decide) (hparts ih))
  | negation _ ih =>
    rw [Predicate.pieces]
    exact .quiet (by decide) (ih.between (by decide) .nil)
  | choice hconditional => exact hconditional.elim
  | comparison op column marker =>
    rw [Predicate.pieces]
    exact legible_comparison (isQuiet_sign op rfl) column marker .nil .nil
  | membership negated column markers =>
    rw [Predicate.pieces]
    have hmarkers : ∀ part ∈ markers.map fun m => [Piece.marker m], Legible d style part := by
      intro part hpart
      obtain ⟨m, _, rfl⟩ := List.mem_map.1 hpart
      exact .marker m
    have hopening : IsQuiet (if negated then " NOT IN (" else " IN (") := by
      cases negated <;> decide
    exact (legible_column column).between hopening
      ((Legible.join (by decide) hmarkers).between (by decide) .nil)
  | nullity isNull column =>
    rw [Predicate.pieces]
    have hword : IsQuiet (if isNull then " IS NULL" else " IS NOT NULL") := by
      cases isNull <;> decide
    exact (legible_column column).between hword .nil
  | @blankness isBlank column marker hmarker =>
    subst hmarker
    exact legible_blankness isBlank column
  | text test negated column marker =>
    rw [Predicate.pieces]
    have hword : IsQuiet (if negated then " NOT LIKE " else " LIKE ") := by
      cases negated <;> decide
    exact legible_comparison hword column marker legible_escapeSuffix guarded_escapeSuffix

/-! ### Expressions -/

theorem isInert_of_isNumeralChar {c : Char} (h : Number.isNumeralChar c = true) :
    isInert c = true :=
  isInert_of_test (by decide) h

theorem legible_numeral {text : String} (h : Number.isNumber text = true) :
    Legible d style [.numeral text] :=
  .inert rfl (fun c hc => isInert_of_isNumeralChar (Number.isNumeralChar_of_isNumber h c hc)) .nil

/-- The expressions of a relational target are legible. -/
theorem legible_expression {e : Expression Column} (h : e.Fits False (· = none)) :
    Legible d style (e.pieces (phrasing d) .cases) := by
  induction h with
  | everything => exact .quiet (by decide) .nil
  | column c => exact legible_column c
  | numeral hnumber => exact legible_numeral hnumber
  | aggregate function _ ih =>
    have hname : IsQuiet function.name := by cases function <;> decide
    rw [Expression.pieces]
    exact .quiet hname (.quiet (by decide) (ih.between (by decide) .nil))
  | choice hc _ _ iht ihf =>
    rw [Expression.pieces]
    refine Legible.between (Legible.between (Legible.between ?_ (by decide) iht) (by decide) ihf)
      (by decide) .nil
    exact .quiet (by decide) (legible_predicate hc)

/-- A column of the result, with its label. -/
theorem legible_item {item : Item} (h : item.expression.Fits False (· = none)) :
    Legible d style (item.pieces d) := by
  have he : Legible d style (item.expression.pieces (phrasing d) .cases) := legible_expression h
  unfold Item.pieces
  split
  · next label _ => exact he.between (by decide) (.name label)
  · rw [List.append_nil]
    exact he

theorem legible_items {items : List Item}
    (h : ∀ item ∈ items, item.expression.Fits False (· = none)) :
    Legible d style (itemPieces d items) := by
  unfold itemPieces
  split
  · exact .table 0 (.quiet (by decide) .nil)
  · refine .join (by decide) fun part hpart => ?_
    obtain ⟨item, hitem, rfl⟩ := List.mem_map.1 hpart
    exact legible_item (h item hitem)

/-! ### Clauses -/

theorem legible_join (j : Join) : Legible d style j.pieces := by
  have hkeys : Legible d style (Piece.join " AND " (j.keys.map (keyPieces j.source j.index))) := by
    refine .join (by decide) fun part hpart => ?_
    obtain ⟨k, _, rfl⟩ := List.mem_map.1 hpart
    exact (legible_column _).between (by decide) (legible_column _)
  refine .quiet (by decide) ((Legible.name j.table).between (by decide) ?_)
  exact .table j.index (.quiet (by decide) hkeys)

theorem legible_joins (js : List Join) :
    Legible d style (js.flatMap Join.pieces) ∧ Guarded d style (js.flatMap Join.pieces) := by
  induction js with
  | nil => exact ⟨.nil, .nil⟩
  | cons j js ih =>
    rw [List.flatMap_cons]
    exact ⟨(legible_join j).append ih.1 ih.2, .append (.quiet (by decide) _) ih.2⟩

/-- The statement up to its order is legible. -/
theorem legible_core {p : Plan} (h : p.Fits) : Legible d style (p.core d) := by
  have hselect : IsQuiet (if p.distinct then "SELECT DISTINCT " else "SELECT ") := by
    cases p.distinct <;> decide
  have hfrom : Legible d style
      [.fixed "\nFROM ", .name p.table, .fixed " ", .table 0] :=
    .quiet (by decide) ((Legible.name p.table).between (by decide) (.table 0 .nil))
  have hfilters : ∀ part ∈ Predicate.piecesAll (phrasing d) p.filters, Legible d style part := by
    intro part hpart
    rw [Predicate.piecesAll_eq_map] at hpart
    obtain ⟨q, hq, rfl⟩ := List.mem_map.1 hpart
    exact legible_predicate (h.filters q hq)
  have hgroups : ∀ part ∈ p.groups.map Column.pieces, Legible d style part := by
    intro part hpart
    obtain ⟨c, _, rfl⟩ := List.mem_map.1 hpart
    exact legible_column c
  obtain ⟨hjoins, hjoinsGuard⟩ := legible_joins p.joins
  unfold Plan.core
  refine .append (.append (.append (.append (.quiet hselect (legible_items h.items)) hfrom
    (.quiet (by decide) _)) hjoins hjoinsGuard) ?_ (.clause (by decide) _ _)) ?_
    (.clause (by decide) _ _)
  · exact .clause (by decide) (by decide) hfilters
  · exact .clause (by decide) (by decide) hgroups

theorem legible_ordering (p : Plan) :
    Legible d style (p.ordering d) ∧ Guarded d style (p.ordering d) := by
  have horder : ∀ part ∈ p.orders.map orderPieces, Legible d style part := by
    intro part hpart
    obtain ⟨⟨by_, ascending⟩, _, rfl⟩ := List.mem_map.1 hpart
    have hword : IsQuiet (if ascending then " ASC" else " DESC") := by
      cases ascending <;> decide
    cases by_ with
    | label name => exact (Legible.name name).between hword .nil
    | column c => exact (legible_column c).between hword .nil
  unfold Plan.ordering
  split
  · exact ⟨.quiet (by decide) .nil, .quiet (by decide) _⟩
  · exact ⟨.clause (by decide) (by decide) horder, .clause (by decide) _ _⟩

theorem Legible.rows (n : UInt64) {ps : List Piece} (h : Legible d style ps) :
    Legible d style (Dialect.rows n :: ps) :=
  .inert rfl (fun _ hc => isInert_of_isDigit (Number.isDigit_of_mem_toString hc)) h

theorem legible_page (p : Plan) : Legible d style (p.page d) := by
  refine .quiet (by decide) ?_
  unfold Dialect.paging
  split
  · exact .quiet (by decide) (.rows _ (.quiet (by decide) (.rows _ (.quiet (by decide) .nil))))
  · exact .quiet (by decide) (.rows _ (.quiet (by decide) (.rows _ .nil)))
  · exact .quiet (by decide) (.rows _ (.quiet (by decide) (.rows _ .nil)))
  · exact .quiet (by decide) (.rows _ .nil)

/-- The whole statement is legible. -/
theorem legible_pieces {p : Plan} (h : p.Fits) : Legible d style (p.pieces d) := by
  obtain ⟨hordering, hguard⟩ := legible_ordering p
  exact ((legible_core h).append hordering hguard).append (legible_page p) (.quiet (by decide) _)

theorem legible_countPieces {p : Plan} (h : p.Fits) : Legible d style (p.countPieces d) :=
  Legible.between (.quiet (by decide) (legible_core h)) (by decide) .nil

end Legible

/-! ## The markers of a plan -/

theorem markers_column (c : Column) : Piece.markers c.pieces = [] := rfl

theorem markers_item (d : Dialect) {item : Item} (h : item.expression.Fits False (· = none)) :
    Piece.markers (item.pieces d) = item.expression.slots.map Prod.snd := by
  rw [← Expression.markers_pieces (phrasing_faithful d) .cases h, Item.pieces,
    Piece.markers_append]
  split <;> simp

theorem markers_items (d : Dialect) {items : List Item}
    (h : ∀ item ∈ items, item.expression.Fits False (· = none)) :
    Piece.markers (itemPieces d items) =
      (items.flatMap fun item => item.expression.slots).map Prod.snd := by
  unfold itemPieces
  split
  · next hempty => rw [List.isEmpty_iff.1 hempty]; rfl
  · rw [Piece.markers_join, List.flatMap_map, List.map_flatMap]
    rw [List.flatMap_def, List.flatMap_def,
      List.map_congr_left fun item hitem => markers_item d (h item hitem)]

theorem markers_join_pieces (j : Join) : Piece.markers j.pieces = [] := by
  simp [Join.pieces, keyPieces, markers_column, List.flatMap_map]

/-- The statement up to its order has all the markers of the plan. -/
theorem markers_core (d : Dialect) {p : Plan} (h : p.Fits) :
    Piece.markers (p.core d) = p.slots.map Prod.snd := by
  have hjoins : Piece.markers (p.joins.flatMap Join.pieces) = [] := by
    induction p.joins with
    | nil => rfl
    | cons j js ih => rw [List.flatMap_cons, Piece.markers_append, markers_join_pieces, ih]; rfl
  have hfilters : (Predicate.piecesAll (phrasing d) p.filters).flatMap Piece.markers =
      (p.filters.flatMap Predicate.slots).map Prod.snd :=
    Predicate.flatMap_markers_eq fun q hq =>
      Predicate.markers_pieces (phrasing_faithful d) (h.filters q hq)
  have hgroups : (p.groups.map Column.pieces).flatMap Piece.markers = [] := by
    simp [List.flatMap_map, markers_column]
  simp [Plan.core, Plan.slots, markers_items d h.items, hjoins, hfilters, hgroups]

theorem markers_ordering (d : Dialect) (p : Plan) : Piece.markers (p.ordering d) = [] := by
  unfold Plan.ordering
  split
  · rfl
  · rw [Piece.markers_clause, List.flatMap_map]
    refine List.flatMap_eq_nil_iff.2 fun order _ => ?_
    obtain ⟨by_, ascending⟩ := order
    cases by_ <;> rfl

theorem markers_page (d : Dialect) (p : Plan) : Piece.markers (p.page d) = [] := by
  unfold Plan.page Dialect.paging
  split <;> rfl

/-- The pieces of a plan hold its markers, in their order. -/
theorem markers_pieces (d : Dialect) {p : Plan} (h : p.Fits) :
    Piece.markers (p.pieces d) = p.slots.map Prod.snd := by
  simp [Plan.pieces, markers_core d h, markers_ordering, markers_page]

theorem markers_countPieces (d : Dialect) {p : Plan} (h : p.Fits) :
    Piece.markers (p.countPieces d) = p.slots.map Prod.snd := by
  simp [Plan.countPieces, markers_core d h]

/-! ## The markers of a statement -/

/-- In a compiled statement the markers line up with the values: there is one
for each value, in their order and in the style asked for.  They are spelled
from markers of the plan that are numbered from one on; a number is what binding
the value in its place gave; and the path of this value leads to the column
beside the marker.  The statement that counts the rows has the same markers. -/
theorem compile_markers_line_up (catalog : Catalog) (config : Config) (d : Dialect)
    (r : Request) (st : Statement) (h : compile catalog config d r = .ok st) :
    (config.markerStyle = .positional ∨ d = .mysql ∨ d = .h2 →
      d.markersIn st.sql = List.replicate st.values.length "?") ∧
    (config.markerStyle = .numbered → d = .postgres ∨ d = .sqlite ∨ d = .sqlserver →
      d.markersIn st.sql = (List.range' 1 st.values.length).map d.numberedMarker) ∧
    (∀ count, st.countSql = some count → d.markersIn count = d.markersIn st.sql) ∧
    (∀ (path : String) (value : Value) (progress : Progress Scope),
      Build.bind path value progress = .ok (progress.values.length + 1,
        { progress with values := progress.values ++ [(path, value)] })) ∧
    ∃ p, plan catalog config r = .ok p ∧ st = p.statement d config.markerStyle ∧
      d.markersIn st.sql =
        (Piece.markers (p.pieces d)).map (d.marker config.markerStyle) ∧
      Piece.markers (p.pieces d) = p.slots.map Prod.snd ∧
      p.slots.map Prod.snd = List.range' 1 st.values.length ∧
      ∀ c k, (c, k) ∈ p.slots → ∃ i path value, k = i + 1 ∧
        st.values[i]? = some (path, value) ∧
        Leads catalog r.collection config.maxRelationshipDepth.toNat c path := by
  obtain ⟨p, hplan, hst⟩ := bind_eq_ok_iff.1 h
  obtain rfl := pure_eq_ok_iff.1 hst
  obtain ⟨hnumbered, hfits⟩ := plan_ok hplan
  have hnumbers : p.slots.map Prod.snd = List.range' 1 p.values.length := hnumbered.numbers_eq
  have hsql : d.markersIn (p.statement d config.markerStyle).sql =
      (List.range' 1 p.values.length).map (d.marker config.markerStyle) := by
    rw [← hnumbers, ← markers_pieces d hfits]
    exact (legible_pieces hfits).markersIn_eq
  have hcount : d.markersIn (Piece.textAll (d.spelling config.markerStyle) (p.countPieces d)) =
      (List.range' 1 p.values.length).map (d.marker config.markerStyle) := by
    rw [← hnumbers, ← markers_countPieces d hfits]
    exact (legible_countPieces hfits).markersIn_eq
  refine ⟨?_, ?_, ?_, fun _ _ _ => rfl, p, hplan, rfl, ?_, markers_pieces d hfits, hnumbers, ?_⟩
  · intro hplain
    have hmarker : ∀ k, d.marker config.markerStyle k = "?" := by
      intro k
      rcases hplain with hstyle | rfl | rfl
      · rw [hstyle]; rfl
      · cases config.markerStyle <;> rfl
      · cases config.markerStyle <;> rfl
    rw [hsql, List.map_congr_left fun k _ => hmarker k, List.map_const', List.length_range']
    rfl
  · intro hstyle _
    rw [hsql, hstyle]
    rfl
  · intro count hsome
    have hcountSql : Piece.textAll (d.spelling config.markerStyle) (p.countPieces d) = count := by
      change (if p.rowCount then _ else none) = some count at hsome
      split at hsome
      · exact Option.some.inj hsome
      · cases hsome
    rw [hsql, ← hcountSql, hcount]
  · rw [hsql, markers_pieces d hfits, hnumbers]
  · intro c k hk
    obtain ⟨i, path, value, hi, hentry, hleads⟩ := hnumbered.exists_entry hk
    exact ⟨i, path, value, by omega, hentry, hleads⟩

theorem compile_markers_of_quoted_column :
    Dialect.postgres.markersIn ("SELECT CASE WHEN t0.\"age\" > $1 THEN 1 ELSE 2.5 END AS \"n$7\"" ++
      "\nFROM \"people\" t0\nWHERE (t0.\"what?\"\"\" LIKE $2 OR t0.\"age\" IN ($3, $4))" ++
      "\nLIMIT 100") = ["$1", "$2", "$3", "$4"] :=
  (compile_markers_line_up ⟨[]⟩ (Config.standard.withMarkers .numbered) .postgres
    { collection := ⟨"people", none,
        [⟨"what", some "what?\"", .string, true⟩, ⟨"age", none, .integer, true⟩], [], []⟩
      filters := [.call "or" [.call "sw" [.word "what", .leaf "'?" (some .double)],
        .call "in" [.word "age", .word "1", .word "2"]]]
      page := .none
      after := none
      sorts := []
      groups := []
      includes := []
      computed := [⟨.call "if" [.call "gt" [.word "age", .word "3"], .word "1", .word "2.5"],
        .word "n$7"⟩]
      distinct := false
      rowCount := false }
    { dialect := .postgres
      sql := "SELECT CASE WHEN t0.\"age\" > $1 THEN 1 ELSE 2.5 END AS \"n$7\"" ++
        "\nFROM \"people\" t0\nWHERE (t0.\"what?\"\"\" LIKE $2 OR t0.\"age\" IN ($3, $4))" ++
        "\nLIMIT 100"
      values := [("age", .int 3), ("what", .text "'?%"), ("age", .int 1), ("age", .int 2)]
      countSql := none
      window := ⟨0, 100⟩ }
    (eq_ok_of_toOption (by decide +kernel))).2.1 rfl (.inl rfl)

end ResourceQuery.Sql
