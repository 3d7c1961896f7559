import ResourceQuery.Document.Plan

set_option autoImplicit false

/-!
# Document queries: spelling

Queries have the form `SELECT … FROM c` with parameters `@param1`, `@param2`, ….
-/

namespace ResourceQuery.Document

/-- A segment as a string of the query language. -/
def quoteSegment (s : String) : String :=
  "\"" ++ String.ofList (s.toList.flatMap fun c => if c = '"' then ['\\', c] else [c]) ++ "\""

/-- How names and markers are spelled. -/
def spelling : Spelling := ⟨quoteSegment, fun index => s!"@param{index}"⟩

/-- A property, by its segments. -/
def columnPieces (column : Column) : List Piece :=
  .fixed "c" :: column.flatMap fun segment => [.fixed "[", .name segment, .fixed "]"]

/-- The property is missing or null. -/
def absent (column : List Piece) : List Piece :=
  .fixed "NOT IS_DEFINED(" :: column ++ .fixed ") OR IS_NULL(" :: column ++ [.fixed ")"]

/-- The property is there and not null. -/
def present (column : List Piece) : List Piece :=
  .fixed "IS_DEFINED(" :: column ++ .fixed ") AND NOT IS_NULL(" :: column ++ [.fixed ")"]

/-- How predicates are phrased. -/
def phrasing : Phrasing Column where
  column := columnPieces
  notEqual := "!="
  nullity isNull column :=
    Predicate.enclosed (if isNull then absent column else present column)
  blankness isBlank column _ :=
    Predicate.enclosed
      (if isBlank then absent column ++ .fixed " OR " :: column ++ [.fixed " = \"\""]
      else present column ++ .fixed " AND " :: column ++ [.fixed " != \"\""])
  text := functions.pieces

/-! ## Queries -/

/-- A column of the result. -/
def itemPieces (item : Expression Column × Option String) : List Piece :=
  item.1.pieces phrasing .conditional ++
    match item.2 with
    | some label => [.fixed " AS ", .label label]
    | none => []

/-- The filter. -/
def Plan.wherePieces (p : Plan) : List Piece :=
  Piece.clause " WHERE " " AND " (Predicate.piecesAll phrasing p.filters)

/-- The whole query. -/
def Plan.pieces (p : Plan) (distinct : Bool) (window : Window) : List Piece :=
  .fixed (if distinct then "SELECT DISTINCT " else "SELECT ") ::
    (if p.items.isEmpty then [.fixed "*"] else Piece.join ", " (p.items.map itemPieces)) ++
    .fixed " FROM c" :: p.wherePieces ++
    Piece.clause " GROUP BY " ", " (p.groups.map columnPieces) ++
    Piece.clause " ORDER BY " ", " (p.orders.map fun (column, ascending) =>
      columnPieces column ++ [.fixed (if ascending then " ASC" else " DESC")]) ++
    [.fixed " OFFSET ", .numeral (toString window.offset.toNat), .fixed " LIMIT ",
      .numeral (toString window.limit.toNat)]

/-- The query that counts the rows. -/
def Plan.countPieces (p : Plan) : List Piece :=
  .fixed "SELECT VALUE COUNT(1) FROM c" :: p.wherePieces

end ResourceQuery.Document
