import ResourceQuery.ColumnPath
import ResourceQuery.Statement.Expression
import ResourceQuery.Statement.TextFunctions

set_option autoImplicit false

/-!
# Document queries: plans

What a document query asks for, before it is spelled.  The store has no joins,
and of text tests only those for the beginning and the end.
-/

namespace ResourceQuery.Document

/-- The name of the target in messages. -/
def backend : String := "document"

/-- A property of a document: its physical segments. -/
abbrev Column := List String

/-! ## Columns and tests -/

/-- The property of a path. -/
def resolve (root : Collection) (path : String) : Build Unit (Column × Property) :=
  Build.lookup (ColumnPath.inside backend root path)

/-- Texts are tested for their beginning and their end. -/
def functions : TextFunctions where
  backend := backend
  available := [.startsWith, .endsWith]
  alternatives := "sw, ew"
  opening test := if test = .endsWith then "ENDSWITH(" else "STARTSWITH("

/-- What the compiler of predicates asks of the document target. -/
def dialog (root : Collection) : Dialog Unit Column where
  backend := backend
  resolve := resolve root
  deciding := .conditional
  refused := functions.refused
  test := functions.test
  unlike
    | .text test negated column marker => .text test (!negated) column marker
    | p => .negation p
  outside column markers := .membership true column markers
  blankness isBlank column _ := return .blankness isBlank column none

/-- Inside an aggregate `*` counts each document once. -/
def star (inside : Bool) (t : Term) : Option (Expression Column) :=
  (Expression.numeral "1").ofStar inside t

/-! ## Plans -/

/-- What the result is ordered by; computed columns cannot be. -/
def orders (d : Dialog Unit Column) (r : Request) :
    List SortKey → Build Unit (List (Column × Bool))
  | [] => return []
  | sort :: sorts => do
    if r.hasAlias sort.column then
      throw (d.unsupported s!"order by alias '{sort.column}'" "order by a property")
    let (column, _) ← d.resolve sort.column
    let rest ← orders d r sorts
    return (column, sort.ascending) :: rest

/-- A document query before it is spelled. -/
structure Plan where
  items : List (Expression Column × Option String)
  filters : List (Predicate Column)
  groups : List Column
  orders : List (Column × Bool)
  deriving Repr, Inhabited

/-- The plan of a request, compiled in the order in which its parts stand in the
query. -/
def plan (d : Dialog Unit Column) (r : Request) : Build Unit Plan := do
  let plain ← d.columns r.plainColumns
  let computed ← d.computed star r.computed
  let filters ← d.predicates r.filters
  let groups ← d.groups r.groups
  let orders ← orders d r r.sorts
  let items := plain.map (fun (_, column, _) => (Expression.column column, none)) ++
    computed.map fun (p, e) => (e, if p.isAnonymous then none else some p.label.token)
  return ⟨items, filters, groups, orders⟩

end ResourceQuery.Document
