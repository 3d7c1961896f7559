import ResourceQuery.Sql.Dialect
import ResourceQuery.Sql.Plan

set_option autoImplicit false

/-!
# SQL: statements

A plan spelled in a dialect.
-/

namespace ResourceQuery.Sql

/-- A compiled relational statement. -/
structure Statement where
  dialect : Dialect
  /-- The statement for one page. -/
  sql : String
  /-- Values for the markers, in order. -/
  values : Bindings
  /-- The statement that counts all rows, if it was asked for.  It takes the
  same values. -/
  countSql : Option String
  window : Window
  deriving DecidableEq, Repr, Inhabited

/-- A column of a table. -/
def Column.pieces (c : Column) : List Piece := [.table c.table, .fixed ".", .name c.name]

/-- The declaration of the escape character of a pattern. -/
def escapeSuffix (d : Dialect) : String :=
  match d.patternEscape with
  | some escape => s!" ESCAPE '{escape}'"
  | none => ""

/-- How a dialect phrases predicates. -/
def phrasing (d : Dialect) : Phrasing Column where
  column := Column.pieces
  notEqual := "<>"
  nullity isNull column := column ++ [.fixed (if isNull then " IS NULL" else " IS NOT NULL")]
  blankness isBlank column _ :=
    if isBlank then
      .fixed "(" :: column ++ .fixed " IS NULL OR " :: column ++ [.fixed " = '')"]
    else
      .fixed "(" :: column ++ .fixed " IS NOT NULL AND " :: column ++ [.fixed " <> '')"]
  text _ negated column marker :=
    column ++ [.fixed (if negated then " NOT LIKE " else " LIKE "), .marker marker,
      .fixed (escapeSuffix d)]

/-! ## Clauses -/

/-- A column of the result. -/
def Item.pieces (d : Dialect) (item : Item) : List Piece :=
  item.expression.pieces (phrasing d) .cases ++
    match item.label with
    | some label => [.fixed " AS ", .name label]
    | none => []

/-- The columns of the result. -/
def itemPieces (d : Dialect) (items : List Item) : List Piece :=
  if items.isEmpty then [.table 0, .fixed ".*"]
  else Piece.join ", " (items.map (Item.pieces d))

/-- The comparison of two tables by one pair of columns. -/
def keyPieces (source index : Nat) (k : ColumnPair) : List Piece :=
  Column.pieces ⟨source, k.home⟩ ++ .fixed " = " :: Column.pieces ⟨index, k.foreign⟩

/-- A join. -/
def Join.pieces (j : Join) : List Piece :=
  [.fixed "\nLEFT JOIN ", .name j.table, .fixed " ", .table j.index, .fixed " ON "] ++
    Piece.join " AND " (j.keys.map (keyPieces j.source j.index))

/-- The statement up to its ordering. -/
def Plan.core (d : Dialect) (p : Plan) : List Piece :=
  .fixed (if p.distinct then "SELECT DISTINCT " else "SELECT ") :: itemPieces d p.items ++
    [.fixed "\nFROM ", .name p.table, .fixed " ", .table 0] ++
    p.joins.flatMap Join.pieces ++
    Piece.clause "\nWHERE " " AND " (Predicate.piecesAll (phrasing d) p.filters) ++
    Piece.clause "\nGROUP BY " ", " (p.groups.map Column.pieces)

/-- One part of an ordering. -/
def orderPieces (o : OrderBy × Bool) : List Piece :=
  (match o.1 with
    | .label name => [.name name]
    | .column column => column.pieces) ++
  [.fixed (if o.2 then " ASC" else " DESC")]

/-- The ordering, or the words that stand for none where paging needs one. -/
def Plan.ordering (d : Dialect) (p : Plan) : List Piece :=
  if p.orders.isEmpty && d.pagesNeedOrder then [.fixed "\nORDER BY (SELECT NULL)"]
  else Piece.clause "\nORDER BY " ", " (p.orders.map orderPieces)

/-- The page. -/
def Plan.page (d : Dialect) (p : Plan) : List Piece :=
  .fixed "\n" ::
    d.paging p.window.limit (if 0 < p.window.offset then some p.window.offset else none)

/-- The whole statement. -/
def Plan.pieces (d : Dialect) (p : Plan) : List Piece :=
  p.core d ++ p.ordering d ++ p.page d

/-- The statement that counts the rows. -/
def Plan.countPieces (d : Dialect) (p : Plan) : List Piece :=
  .fixed "SELECT COUNT(*) FROM (" :: p.core d ++ [.fixed ") rc"]

/-- The plan spelled out. -/
def Plan.statement (d : Dialect) (style : MarkerStyle) (p : Plan) : Statement where
  dialect := d
  sql := Piece.textAll (d.spelling style) (p.pieces d)
  values := p.values
  countSql :=
    if p.rowCount then some (Piece.textAll (d.spelling style) (p.countPieces d)) else none
  window := p.window

/-- The statement of a request. -/
def compile (catalog : Catalog) (config : Config) (d : Dialect) (r : Request) :
    Except Fault Statement := do
  let p ← plan catalog config r
  return p.statement d config.markerStyle

end ResourceQuery.Sql
