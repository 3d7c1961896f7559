import ResourceQuery.Proofs.Sql.Joins

set_option autoImplicit false

/-!
# SQL: every column is in scope

The references of a request to columns and the columns of its plan stand in the
same order, and each reference leads along the joins of the plan to its column.
The statement names no columns besides these and those that its joins compare,
and no tables besides the root table and the joined ones.

`InScope` is proved of the pieces clause by clause and says where a table may be
met at all.  That the columns are the right ones is the other half:
`Plan.Course.refers` pairs the references of the request with the columns of the
plan, and `Plan.Course.joined` finds the hops along which they are reached.
-/

namespace ResourceQuery.Sql

/-! ## The tables among the pieces -/

/-- The piece is the alias of a table. -/
def isTable : Piece → Bool
  | .table _ => true
  | _ => false

/-- The table pieces are met in two ways only: as an alias by itself, and before
a dot and the name of a column. -/
inductive InScope (aliases : Nat → Prop) (columns : Column → Prop) : List Piece → Prop where
  | nil : InScope aliases columns []
  | other {piece : Piece} {ps : List Piece} (hpiece : isTable piece = false)
      (hps : InScope aliases columns ps) : InScope aliases columns (piece :: ps)
  | alone {index : Nat} {ps : List Piece} (halias : aliases index)
      (hdot : ps.head? ≠ some (.fixed ".")) (hps : InScope aliases columns ps) :
      InScope aliases columns (.table index :: ps)
  | column {c : Column} {ps : List Piece} (hc : columns c) (hps : InScope aliases columns ps) :
      InScope aliases columns (c.pieces ++ ps)

namespace InScope

variable {aliases aliases' : Nat → Prop} {columns columns' : Column → Prop} {ps qs : List Piece}
  {parts : List (List Piece)} {text opening glue : String}

theorem mono (h : InScope aliases columns ps) (haliases : ∀ index, aliases index → aliases' index)
    (hcolumns : ∀ c, columns c → columns' c) : InScope aliases' columns' ps := by
  induction h with
  | nil => exact .nil
  | other hpiece _ ih => exact .other hpiece ih
  | alone halias hdot _ ih => exact .alone (haliases _ halias) hdot ih
  | column hc _ ih => exact .column (hcolumns _ hc) ih

theorem of_all (h : ps.all (fun piece => !isTable piece) = true) : InScope aliases columns ps := by
  induction ps with
  | nil => exact .nil
  | cons piece ps ih =>
    rw [List.all_cons, Bool.and_eq_true_iff, Bool.not_eq_true'] at h
    exact .other h.1 (ih h.2)

theorem append (h : InScope aliases columns ps) (h' : InScope aliases columns qs)
    (hdot : qs.head? ≠ some (.fixed ".")) : InScope aliases columns (ps ++ qs) := by
  induction h with
  | nil => exact h'
  | other hpiece _ ih => exact .other hpiece ih
  | @alone index ps halias hfirst _ ih =>
    refine .alone halias ?_ ih
    cases ps with
    | nil => exact hdot
    | cons piece ps => exact hfirst
  | column hc _ ih =>
    rw [List.append_assoc]
    exact .column hc ih

theorem head?_nil_ne : ([] : List Piece).head? ≠ some (.fixed ".") := fun h => by cases h

theorem head?_fixed_ne (htext : text ≠ ".") :
    (Piece.fixed text :: ps).head? ≠ some (.fixed ".") :=
  fun h => htext (Piece.fixed.inj (Option.some.inj h))

theorem between (h : InScope aliases columns ps) (htext : text ≠ ".")
    (h' : InScope aliases columns qs) : InScope aliases columns (ps ++ .fixed text :: qs) :=
  h.append (.other rfl h') (head?_fixed_ne htext)

theorem join (hglue : glue ≠ ".") (h : ∀ part ∈ parts, InScope aliases columns part) :
    InScope aliases columns (Piece.join glue parts) := by
  induction parts with
  | nil => exact .nil
  | cons part parts ih =>
    have hpart := h part List.mem_cons_self
    have hrest := ih fun part' hpart' => h part' (List.mem_cons_of_mem part hpart')
    cases parts with
    | nil => exact hpart
    | cons next others => exact hpart.between hglue hrest

theorem clause (hglue : glue ≠ ".") (h : ∀ part ∈ parts, InScope aliases columns part) :
    InScope aliases columns (Piece.clause opening glue parts) := by
  unfold Piece.clause
  split
  · exact .nil
  · exact .other rfl (.join hglue h)

theorem head?_clause_ne (hopening : opening ≠ ".") :
    (Piece.clause opening glue parts).head? ≠ some (.fixed ".") := by
  unfold Piece.clause
  split
  · exact head?_nil_ne
  · exact head?_fixed_ne hopening

end InScope

section Pieces

variable {aliases : Nat → Prop} {columns : Column → Prop} {d : Dialect}

/-- Besides the columns of a predicate no tables are met. -/
theorem inScope_predicate {q : Predicate Column} (h : q.Fits False (· = none)) :
    (∀ c ∈ q.columns, columns c) → InScope aliases columns (q.pieces (phrasing d)) := by
  have hparts : ∀ {parts : List (Predicate Column)},
      (∀ q ∈ parts, (∀ c ∈ q.columns, columns c) →
        InScope aliases columns (q.pieces (phrasing d))) →
      (∀ c ∈ parts.flatMap Predicate.columns, columns c) →
      ∀ part ∈ Predicate.piecesAll (phrasing d) parts, InScope aliases columns part := by
    intro parts ih hcolumns part hpart
    rw [Predicate.piecesAll_eq_map] at hpart
    obtain ⟨q, hq, rfl⟩ := List.mem_map.1 hpart
    exact ih q hq fun c hc => hcolumns c (List.mem_flatMap.2 ⟨q, hq, hc⟩)
  have henclosed : ∀ {ps : List Piece}, InScope aliases columns ps →
      InScope aliases columns (Predicate.enclosed ps) :=
    fun hps => .other rfl (hps.between (by decide) .nil)
  induction h with
  | all _ ih =>
    intro hcolumns
    rw [Predicate.columns_all] at hcolumns
    rw [Predicate.pieces]
    exact henclosed (.join (by decide) (hparts ih hcolumns))
  | any _ ih =>
    intro hcolumns
    rw [Predicate.columns_any] at hcolumns
    rw [Predicate.pieces]
    exact henclosed (.join (by decide) (hparts ih hcolumns))
  | negation _ ih =>
    intro hcolumns
    rw [Predicate.columns] at hcolumns
    rw [Predicate.pieces]
    exact .other rfl ((ih hcolumns).between (by decide) .nil)
  -- relational statements decide by connectives alone
  | choice hconditional => exact hconditional.elim
  | comparison op column marker =>
    intro hcolumns
    rw [Predicate.columns, List.forall_mem_singleton] at hcolumns
    rw [Predicate.pieces]
    exact .column hcolumns (.other rfl (.other rfl .nil))
  | membership negated column markers =>
    intro hcolumns
    rw [Predicate.columns, List.forall_mem_singleton] at hcolumns
    have hmarkers : ∀ part ∈ markers.map fun m => [Piece.marker m],
        InScope aliases columns part := by
      intro part hpart
      obtain ⟨m, _, rfl⟩ := List.mem_map.1 hpart
      exact .other rfl .nil
    rw [Predicate.pieces, List.append_assoc]
    exact .column hcolumns (.other rfl ((InScope.join (by decide) hmarkers).between (by decide) .nil))
  | nullity isNull column =>
    intro hcolumns
    rw [Predicate.columns, List.forall_mem_singleton] at hcolumns
    rw [Predicate.pieces]
    exact .column hcolumns (.other rfl .nil)
  | blankness isBlank column hmarker =>
    intro hcolumns
    rw [Predicate.columns, List.forall_mem_singleton] at hcolumns
    rw [Predicate.pieces]
    cases isBlank with
    | true =>
      exact .other rfl (.column hcolumns (.other rfl (.column hcolumns (.other rfl .nil))))
    | false =>
      exact .other rfl (.column hcolumns (.other rfl (.column hcolumns (.other rfl .nil))))
  | text test negated column marker =>
    intro hcolumns
    rw [Predicate.columns, List.forall_mem_singleton] at hcolumns
    rw [Predicate.pieces]
    exact .column hcolumns (.other rfl (.other rfl (.other rfl .nil)))

theorem inScope_expression {e : Expression Column} (h : e.Fits False (· = none)) :
    (∀ c ∈ e.columns, columns c) → InScope aliases columns (e.pieces (phrasing d) .cases) := by
  induction h with
  | everything => exact fun _ => .other rfl .nil
  | column c => exact fun hcolumns => .column (hcolumns c (List.mem_singleton_self c)) .nil
  | numeral _ => exact fun _ => .other rfl .nil
  | aggregate function _ ih =>
    intro hcolumns
    rw [Expression.pieces]
    exact .other rfl (.other rfl ((ih hcolumns).between (by decide) .nil))
  | choice hcondition _ _ iht ihf =>
    intro hcolumns
    rw [Expression.columns] at hcolumns
    rw [List.forall_mem_append, List.forall_mem_append] at hcolumns
    rw [Expression.pieces]
    refine InScope.between (InScope.between (InScope.between ?_ (by decide) (iht hcolumns.2.1))
      (by decide) (ihf hcolumns.2.2)) (by decide) .nil
    exact .other rfl (inScope_predicate hcondition hcolumns.1)

/-- A join brings in its own table, and compares it with the one it is joined to. -/
theorem inScope_join (j : Join) :
    InScope (· = j.index) (fun c => c.table = j.source ∨ c.table = j.index) j.pieces := by
  have hkeys : ∀ part ∈ j.keys.map (keyPieces j.source j.index),
      InScope (· = j.index) (fun c => c.table = j.source ∨ c.table = j.index) part := by
    intro part hpart
    obtain ⟨k, _, rfl⟩ := List.mem_map.1 hpart
    rw [keyPieces, ← List.append_nil (Column.pieces ⟨j.index, k.foreign⟩)]
    exact .column (.inl rfl) (.other rfl (.column (.inr rfl) .nil))
  refine .other rfl (.other rfl (.other rfl ?_))
  exact .alone rfl (InScope.head?_fixed_ne (by decide)) (.other rfl (.join (by decide) hkeys))

theorem inScope_joins {js : List Join} (h : ∀ j ∈ js, InScope aliases columns j.pieces) :
    InScope aliases columns (js.flatMap Join.pieces) ∧
      (js.flatMap Join.pieces).head? ≠ some (.fixed ".") := by
  induction js with
  | nil => exact ⟨.nil, InScope.head?_nil_ne⟩
  | cons j js ih =>
    have hrest := ih fun j' hj' => h j' (List.mem_cons_of_mem j hj')
    rw [List.flatMap_cons]
    exact ⟨(h j List.mem_cons_self).append hrest.1 hrest.2, InScope.head?_fixed_ne (by decide)⟩

theorem inScope_items {items : List Item}
    (hfits : ∀ item ∈ items, item.expression.Fits False (· = none)) (hroot : aliases 0)
    (h : ∀ c ∈ items.flatMap (fun item => item.expression.columns), columns c) :
    InScope aliases columns (itemPieces d items) := by
  unfold itemPieces
  split
  · exact .alone hroot (InScope.head?_fixed_ne (by decide)) (.other rfl .nil)
  · refine .join (by decide) fun part hpart => ?_
    obtain ⟨item, hitem, rfl⟩ := List.mem_map.1 hpart
    have he : InScope aliases columns (item.expression.pieces (phrasing d) .cases) :=
      inScope_expression (hfits item hitem) fun c hc => h c (List.mem_flatMap.2 ⟨item, hitem, hc⟩)
    unfold Item.pieces
    split
    · exact he.between (by decide) (.other rfl .nil)
    · rw [List.append_nil]
      exact he

end Pieces

/-! ## The columns of plans -/

/-- The column that a result is ordered by. -/
def OrderBy.column? : OrderBy → Option Column
  | .label _ => none
  | .column c => some c

/-- The columns of a plan, in the order in which they stand in the statement. -/
def Plan.columns (p : Plan) : List Column :=
  p.items.flatMap (fun item => item.expression.columns) ++
    (p.filters.flatMap Predicate.columns ++
      (p.groups ++ p.orders.filterMap fun o => o.1.column?))

section Plan

variable {aliases : Nat → Prop} {columns : Column → Prop} {pl : Plan}

theorem inScope_ordering (d : Dialect)
    (h : ∀ c ∈ pl.orders.filterMap (fun o => o.1.column?), columns c) :
    InScope aliases columns (pl.ordering d) ∧ (pl.ordering d).head? ≠ some (.fixed ".") := by
  unfold Plan.ordering
  split
  · exact ⟨.other rfl .nil, InScope.head?_fixed_ne (by decide)⟩
  · refine ⟨.clause (by decide) fun part hpart => ?_, InScope.head?_clause_ne (by decide)⟩
    obtain ⟨⟨key, ascending⟩, hkey, rfl⟩ := List.mem_map.1 hpart
    cases key with
    | label name => exact .other rfl (.other rfl .nil)
    | column c => exact .column (h c (List.mem_filterMap.2 ⟨_, hkey, rfl⟩)) (.other rfl .nil)

theorem inScope_page (d : Dialect) (p : Plan) : InScope aliases columns (p.page d) := by
  refine .other rfl (.of_all ?_)
  unfold Dialect.paging
  split
  · rfl
  · rfl
  · rfl
  · rfl

/-- The statement names the columns of the plan and those of its joins. -/
theorem inScope_pieces (d : Dialect) (hfits : pl.Fits) (hroot : aliases 0)
    (hcolumns : ∀ c ∈ pl.columns, columns c)
    (hjoins : ∀ j ∈ pl.joins, InScope aliases columns j.pieces) :
    InScope aliases columns (pl.pieces d) := by
  rw [Plan.columns, List.forall_mem_append, List.forall_mem_append, List.forall_mem_append]
    at hcolumns
  obtain ⟨hitems, hfilters, hgroups, horders⟩ := hcolumns
  have hselect : InScope aliases columns (.fixed (if pl.distinct then "SELECT DISTINCT " else
      "SELECT ") :: itemPieces d pl.items) :=
    .other rfl (inScope_items hfits.items hroot hitems)
  have hfrom : InScope aliases columns [.name pl.table, .fixed " ", .table 0] :=
    .other rfl (.other rfl (.alone hroot InScope.head?_nil_ne .nil))
  have hwhere : ∀ part ∈ Predicate.piecesAll (phrasing d) pl.filters,
      InScope aliases columns part := by
    intro part hpart
    rw [Predicate.piecesAll_eq_map] at hpart
    obtain ⟨q, hq, rfl⟩ := List.mem_map.1 hpart
    exact inScope_predicate (hfits.filters q hq) fun c hc =>
      hfilters c (List.mem_flatMap.2 ⟨q, hq, hc⟩)
  have hgroup : ∀ part ∈ pl.groups.map Column.pieces, InScope aliases columns part := by
    intro part hpart
    obtain ⟨c, hc, rfl⟩ := List.mem_map.1 hpart
    rw [← List.append_nil c.pieces]
    exact .column (hgroups c hc) .nil
  have hjoined := inScope_joins hjoins
  have hordered : InScope aliases columns (pl.ordering d) ∧ _ := inScope_ordering d horders
  have hcore : InScope aliases columns (pl.core d) :=
    (((hselect.between (by decide) hfrom).append hjoined.1 hjoined.2).append
      (.clause (by decide) hwhere) (InScope.head?_clause_ne (by decide))).append
        (.clause (by decide) hgroup) (InScope.head?_clause_ne (by decide))
  exact (hcore.append hordered.1 hordered.2).append (inScope_page d pl)
    (InScope.head?_fixed_ne (by decide))

end Plan

/-! ## References -/

/-- The paths that a request refers to, in the order in which their columns
stand in the statement. -/
def references (r : Request) : List String :=
  (r.plainColumns.map Term.token ++ r.computed.flatMap fun c => c.expression.shownReferences) ++
    (r.filters.flatMap Term.references ++ (r.groups.map Term.token ++
      (r.sorts.filter fun sort => !r.hasAlias sort.column).map SortKey.column))

/-- The columns of a predicate are those that the paths of its term lead to. -/
theorem dialog_concerns (catalog : Catalog) (root : Collection) (limit : Nat) :
    (dialog catalog root limit).Concerns where
  test := by
    intro op c path text p p' q h
    obtain ⟨marker, rfl, hbind⟩ := test_ok h
    obtain ⟨_, rfl⟩ := Build.bind_value_ok_iff.1 hbind
    exact ⟨by rw [Predicate.columns], rfl⟩
  unlike q := by
    have hnegation : ∀ q : Predicate Column, (Predicate.negation q).columns = q.columns :=
      fun q => by rw [Predicate.columns]
    cases q with
    | text test negated column marker => rfl
    | _ => exact hnegation _
  outside c markers := by
    change (Predicate.membership true c markers).columns = _
    rw [Predicate.columns]
  blankness := by
    intro isBlank c path p p' q h
    obtain ⟨rfl, rfl⟩ := Build.pure_ok_iff.1 h
    exact ⟨by rw [Predicate.columns], rfl⟩

theorem starry_star : Dialog.Starry star where
  leaf := by
    intro inside t e h
    obtain ⟨rfl, _, hleaf, htoken⟩ := Expression.ofStar_eq_some h
    exact ⟨hleaf, htoken, rfl⟩
  word _ := rfl

/-- The sort keys that are no labels refer to the columns that the rows are
ordered by. -/
theorem refers_orders {d : Dialog Scope Column} (r : Request) {sorts : List SortKey} :
    ∀ {p p' : Progress Scope} {os : List (OrderBy × Bool)}, orders d r sorts p = .ok (os, p') →
      d.Refers p ((sorts.filter fun sort => !r.hasAlias sort.column).map SortKey.column)
        (os.filterMap fun o => o.1.column?) p' := by
  induction sorts with
  | nil =>
    intro p p' os h
    obtain ⟨rfl, rfl⟩ := Build.pure_ok_iff.1 h
    exact .nil rfl
  | cons sort sorts ih =>
    intro p p' os h
    rw [orders] at h
    split at h
    · next halias =>
      obtain ⟨_, p₁, hlabel, h⟩ := Build.bind_ok_iff.1 h
      obtain ⟨rfl, rfl⟩ := Build.pure_ok_iff.1 hlabel
      obtain ⟨rest, hrest, rfl⟩ := Build.bind_pure_ok_iff.1 h
      rw [List.filter_cons_of_neg (by simp [halias]), List.filterMap_cons_none rfl]
      exact ih hrest
    · next halias =>
      obtain ⟨⟨column, property⟩, p₁, hresolve, h⟩ := Build.bind_ok_iff.1 h
      obtain ⟨_, p₂, hcolumn, h⟩ := Build.bind_ok_iff.1 h
      obtain ⟨rfl, rfl⟩ := Build.pure_ok_iff.1 hcolumn
      obtain ⟨rest, hrest, rfl⟩ := Build.bind_pure_ok_iff.1 h
      have hfirst : d.Refers p [sort.column] [column] p₁ :=
        .of_resolve hresolve rfl (.cons ⟨rfl, rfl⟩ .nil) (List.cons_ne_nil _ _)
      rw [List.filter_cons_of_pos (by simp [halias])]
      exact hfirst.trans (ih hrest)

/-- The columns of a plan are those of the references of the request. -/
theorem Plan.Course.refers {catalog : Catalog} {root : Collection} {limit : Nat} {pl : Plan}
    {r : Request} {plain : List (String × Column × Property)}
    {es : List (Computed × Expression Column)} {p₁ p₂ p₃ p₄ f : Progress Scope}
    (h : pl.Course (dialog catalog root limit) r plain es p₁ p₂ p₃ p₄ f) :
    (dialog catalog root limit).Refers ⟨[], .start⟩ (references r) pl.columns f := by
  have hconcerns := dialog_concerns catalog root limit
  have hitems : pl.items.flatMap (fun item => item.expression.columns) =
      plain.map (fun c => c.2.1) ++ es.flatMap fun e => e.2.columns := by
    rw [h.items, planItems, List.flatMap_append, List.flatMap_map, List.flatMap_map,
      List.map_eq_flatMap]
    rfl
  rw [Plan.columns, hitems]
  exact ((Dialog.refers_columns h.selected).trans
    (Dialog.refers_computed hconcerns rfl starry_star h.computed)).trans
      ((Dialog.refers_predicates hconcerns rfl h.filtered).trans
        ((Dialog.refers_groups h.grouped).trans (refers_orders r h.ordered)))

/-! ## Statements -/

/-- The plan of a request is well scoped: its joins are those of the hops, and
the paths of the request lead along them. -/
structure Plan.WellScoped (p : Plan) (catalog : Catalog) (limit : Nat) (r : Request) (d : Dialect)
    (hops : List Hop) : Prop where
  /-- A hop has one join, or two adjacent ones if it leads by way of a link table. -/
  joins : p.joins = hops.flatMap Hop.joins
  /-- The joined tables are numbered from one on. -/
  aliases : p.joins.map Join.index = List.range' 1 p.joins.length
  /-- A join compares its own table with one that stands before it. -/
  conditions : ∀ j ∈ p.joins, j.source < j.index ∧
    InScope (· = j.index) (fun c => c.table = j.source ∨ c.table = j.index) j.pieces
  /-- A route is joined once. -/
  once : ∀ h ∈ hops, ∀ h' ∈ hops, h.step.route = h'.step.route → h = h'
  /-- Each hop is on the way of a reference. -/
  needed : ∀ h ∈ hops, ∃ path ∈ references r, OnTheWay catalog r.collection limit path h.step
  /-- Each reference leads along the hops to its column. -/
  arrives : List.Forall₂ (Arrives catalog r.collection limit hops) (references r) p.columns
  /-- The columns are in tables that are there. -/
  tables : ∀ c ∈ p.columns, c.table ≤ p.joins.length
  /-- No columns are named besides these and those of the joins. -/
  pieces : InScope (· ≤ p.joins.length)
    (fun c => c ∈ p.columns ∨ ∃ j ∈ p.joins, c.table = j.source ∨ c.table = j.index) (p.pieces d)

section Statement

variable {catalog : Catalog} {limit : Nat} {r : Request} {d : Dialect} {p : Plan} {hops : List Hop}

theorem Plan.WellScoped.table_eq_zero (h : p.WellScoped catalog limit r d hops)
    {path : String} {c : Column} (huse : (path, c) ∈ (references r).zip p.columns)
    (hdot : '.' ∉ path.toList) : c.table = 0 :=
  ((List.forall₂_iff_zip.1 h.arrives).2 huse).table_eq_zero hdot

theorem Plan.WellScoped.table_eq (h : p.WellScoped catalog limit r d hops)
    {path path' : String} {c c' : Column} (huse : (path, c) ∈ (references r).zip p.columns)
    (huse' : (path', c') ∈ (references r).zip p.columns)
    (hroute : (ColumnPath.segments path).dropLast = (ColumnPath.segments path').dropLast) :
    c.table = c'.table :=
  ((List.forall₂_iff_zip.1 h.arrives).2 huse).table_eq h.once
    ((List.forall₂_iff_zip.1 h.arrives).2 huse') hroute

/-- Behind the joins of a plan there are hops: each is on the way of a
reference, and each reference leads along them to its column. -/
theorem Plan.Course.joined {plain : List (String × Column × Property)}
    {es : List (Computed × Expression Column)} {p₁ p₂ p₃ p₄ f : Progress Scope}
    (h : p.Course (dialog catalog r.collection limit) r plain es p₁ p₂ p₃ p₄ f) :
    ∃ hops, f.scope.Joined catalog r.collection hops ∧
      (∀ hop ∈ hops, ∃ path ∈ references r, OnTheWay catalog r.collection limit path hop.step) ∧
      List.Forall₂ (Arrives catalog r.collection limit hops) (references r) p.columns := by
  obtain ⟨uses, hresolves, hcolumns, hpaths⟩ := h.refers
  obtain ⟨hops, _, hjoined, harrives, hneeded⟩ := arrives_resolves hresolves Scope.joined_start
  refine ⟨hops, hjoined, fun hop hhop => ?_, hcolumns.imp fun path c huse => harrives (path, c) huse⟩
  rcases hneeded hop hhop with hold | ⟨use, huse, hway⟩
  · exact absurd hold List.not_mem_nil
  · exact ⟨use.1, hpaths use huse, hway⟩

/-- The plan that comes about is well scoped, and its rows are made distinct if
some hop may multiply them. -/
theorem Plan.Course.wellScoped {plain : List (String × Column × Property)}
    {es : List (Computed × Expression Column)} {p₁ p₂ p₃ p₄ f : Progress Scope}
    (h : p.Course (dialog catalog r.collection limit) r plain es p₁ p₂ p₃ p₄ f) (hfits : p.Fits)
    (d : Dialect) : ∃ hops, p.WellScoped catalog limit r d hops ∧
      p.distinct = (r.distinct || (hops.any Hop.isToMany && r.groups.isEmpty)) := by
  obtain ⟨hops, hjoined, hneeded, hall⟩ := h.joined
  have htables : ∀ c ∈ p.columns, c.table ≤ p.joins.length := by
    intro c hc
    obtain ⟨⟨place, hplace⟩, rfl⟩ := List.get_of_mem hc
    have hpath : place < (references r).length := hall.length_eq ▸ hplace
    obtain ⟨_, _, _, hchain⟩ := hall.get hpath hplace
    rw [h.joins]
    exact hchain.le hjoined.last_le (Nat.zero_le _)
  have hsources : ∀ j ∈ p.joins, j.source < j.index := by
    rw [h.joins]
    exact hjoined.sources
  have hindexes : p.joins.map Join.index = List.range' 1 p.joins.length := by
    rw [h.joins]
    exact hjoined.indexes
  have hle : ∀ j ∈ p.joins, j.index ≤ p.joins.length := by
    intro j hj
    have hmem := List.mem_map_of_mem (f := Join.index) hj
    rw [hindexes] at hmem
    have hbounds := List.mem_range'_1.1 hmem
    omega
  refine ⟨hops, ⟨h.joins.trans hjoined.joins, hindexes, fun j hj => ⟨hsources j hj, inScope_join j⟩,
    hjoined.once, hneeded, hall, htables, ?_⟩, ?_⟩
  · refine inScope_pieces d hfits (Nat.zero_le _) (fun c hc => .inl hc) fun j hj => ?_
    refine (inScope_join j).mono (fun index hindex => ?_) fun c hc => .inr ⟨j, hj, hc⟩
    rw [hindex]
    exact hle j hj
  · rw [h.distinct, hjoined.toMany]

/-- The statement says `DISTINCT` exactly if the plan asks for it. -/
theorem head?_pieces (d : Dialect) (p : Plan) :
    (p.pieces d).head? = some (.fixed "SELECT DISTINCT ") ↔ p.distinct = true := by
  have hhead : (p.pieces d).head? =
      some (.fixed (if p.distinct then "SELECT DISTINCT " else "SELECT ")) := rfl
  rw [hhead]
  cases p.distinct with
  | true => exact ⟨fun _ => rfl, fun _ => rfl⟩
  | false => decide

end Statement

/-- Authors, whose books have authors again, and tags by way of a table between them. -/
def library : Catalog where
  collections := [
    ⟨"authors", some "people",
      [⟨"id", none, .integer, false⟩, ⟨"name", some "full_name", .string, false⟩], [],
      [⟨"mentor", .manyToOne, "authors", [⟨"mentor_id", "id"⟩], none⟩,
        ⟨"books", .oneToMany, "books", [⟨"id", "author_id"⟩], none⟩]⟩,
    ⟨"books", none, [⟨"title", none, .string, false⟩], [],
      [⟨"author", .manyToOne, "authors", [⟨"author_id", "id"⟩], none⟩,
        ⟨"tags", .manyToMany, "tags", [⟨"id", "book_id"⟩],
          some ⟨"book_tags", [⟨"tag_id", "id"⟩]⟩⟩]⟩,
    ⟨"tags", none, [⟨"label", none, .string, false⟩], [], []⟩]

/-- A request that meets the books three times, and the table of the authors as three tables. -/
def taggedAuthors : Request where
  collection := library.collections.headD default
  filters := [.call "eq" [.word "books.tags.label", .word "lean"],
    .call "ne" [.word "books.author.name", .word "b"]]
  page := .none
  after := none
  sorts := [⟨"books.title", true⟩]
  groups := []
  includes := [.word "name", .word "mentor.name"]
  computed := []
  distinct := false
  rowCount := false

end ResourceQuery.Sql
