import ResourceQuery.ColumnPath
import ResourceQuery.Statement.Expression
import ResourceQuery.Statement.TextFunctions

set_option autoImplicit false

/-!
# Key-value requests: attributes

Names and values never stand in an expression themselves: names become `#name1`,
`#name2`, … and values `:val1`, `:val2`, ….
-/

namespace ResourceQuery.KeyValue

/-- The name of the target in messages. -/
def backend : String := "keyvalue"

/-- An attribute, by the stand-ins of its segments. -/
abbrev Column := List Nat

/-- The attribute names met so far; the first one is `#name1`. -/
abbrev Names := List String

/-! ## Columns and tests -/

/-- The stand-in of a name, a new one if the name was not met before. -/
def nameIndex (names : Names) (name : String) : Nat × Names :=
  if names.contains name then (names.idxOf name + 1, names)
  else (names.length + 1, names ++ [name])

/-- The stand-ins of several names. -/
def nameIndexes (names : Names) : List String → List Nat × Names
  | [] => ([], names)
  | segment :: segments =>
    let (index, names) := nameIndex names segment
    let (indexes, names) := nameIndexes names segments
    (index :: indexes, names)

/-- The attribute of a path. -/
def resolve (root : Collection) (path : String) : Build Names (Column × Property) := do
  let (segments, property) ← Build.lookup (ColumnPath.inside backend root path)
  let p ← get
  let (column, names) := nameIndexes p.scope segments
  set { p with scope := names }
  return (column, property)

/-- Texts are tested for their beginning and for a part of them. -/
def functions : TextFunctions where
  backend := backend
  available := [.startsWith, .contains]
  alternatives := "sw, w"
  opening test := if test = .contains then "contains(" else "begins_with("

/-- What the compiler of predicates asks of the key-value target. -/
def dialog (root : Collection) : Dialog Names Column where
  backend := backend
  resolve := resolve root
  deciding := .refused "and, or, not"
  refused := functions.refused
  test := functions.test
  unlike := .negation
  outside column markers := .negation (.membership false column markers)
  blankness isBlank column path := do
    let marker ← Build.bind path (.text "")
    return .blankness isBlank column (some marker)

/-! ## Spelling -/

/-- How markers are spelled; names do not occur in expressions. -/
def spelling : Spelling := ⟨id, fun index => s!":val{index}"⟩

/-- An attribute, by its stand-ins. -/
def columnPieces (column : Column) : List Piece :=
  Piece.join "." (column.map fun index => [.field index])

/-- How predicates are phrased. -/
def phrasing : Phrasing Column where
  column := columnPieces
  notEqual := "<>"
  nullity isNull column :=
    .fixed (if isNull then "attribute_not_exists(" else "attribute_exists(") ::
      column ++ [.fixed ")"]
  blankness isBlank column marker :=
    let marker := match marker with
      | some index => [Piece.marker index]
      | none => []
    if isBlank then
      .fixed "(attribute_not_exists(" :: column ++ .fixed ") OR " :: column ++
        .fixed " = " :: marker ++ [.fixed ")"]
    else
      .fixed "(attribute_exists(" :: column ++ .fixed ") AND " :: column ++
        .fixed " <> " :: marker ++ [.fixed ")"]
  text := functions.pieces

end ResourceQuery.KeyValue
