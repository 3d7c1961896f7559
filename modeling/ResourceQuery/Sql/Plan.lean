import ResourceQuery.ColumnPath
import ResourceQuery.Statement.Expression
import ResourceQuery.Statement.Pattern

set_option autoImplicit false

/-!
# SQL: plans

A plan is a relational statement before it is spelled in a dialect: the columns
with the tables they are taken from, the joins, the conditions and the bound
values.  The root table is number zero, and each join brings in the next one.
-/

namespace ResourceQuery.Sql

/-- A column of a table of the statement. -/
structure Column where
  table : Nat
  name : String
  deriving DecidableEq, Repr, Inhabited

/-- A joined table: its name and number, the number of the table that it is
joined to, and the columns that are compared. -/
structure Join where
  table : String
  index : Nat
  source : Nat
  keys : List ColumnPair
  deriving DecidableEq, Repr, Inhabited

/-- What is remembered of the paths met so far: the joins, the number of the
table that each route ends at, and whether a join may multiply rows. -/
structure Scope where
  joins : List Join
  routes : List (String × Nat)
  toMany : Bool
  deriving DecidableEq, Repr, Inhabited

namespace Scope

/-- No path met yet. -/
def start : Scope := ⟨[], [], false⟩

/-- The table that a route ends at, if it was met before. -/
def table? (s : Scope) (route : String) : Option Nat :=
  (s.routes.find? fun r => r.1 == route).map Prod.snd

/-- Joins a table to `source`. -/
def join (s : Scope) (table : String) (source : Nat) (keys : List ColumnPair) : Nat × Scope :=
  let index := s.joins.length + 1
  (index, { s with joins := s.joins ++ [⟨table, index, source, keys⟩] })

/-- Joins the table that a relationship leads to, by way of its link table if it
has one. -/
def joinStep (s : Scope) (step : Step) (source : Nat) : Nat × Scope :=
  let s := { s with toMany := s.toMany || step.relationship.cardinality.isToMany }
  let (index, s) := match step.relationship.through with
    | none => s.join step.target.tableName source step.relationship.keys
    | some link =>
      let (middle, s) := s.join link.table source step.relationship.keys
      s.join step.target.tableName middle link.keys
  (index, { s with routes := (step.route, index) :: s.routes })

/-- The table that a step leads to from `source`, joined if it was not before. -/
def reach (s : Scope) (step : Step) (source : Nat) : Except Fault (Nat × Scope) :=
  match s.table? step.route with
  | some index => .ok (index, s)
  | none =>
    if step.relationship.keys = [] then
      .error (step.target.misconfigured
        s!"relationship '{step.relationship.name}' has no join keys")
    else .ok (s.joinStep step source)

/-- The table at the end of the steps. -/
def reachAll (s : Scope) (source : Nat) : List Step → Except Fault (Nat × Scope)
  | [] => .ok (source, s)
  | step :: steps => do
    let (index, s) ← s.reach step source
    s.reachAll index steps

end Scope

/-! ## Columns and tests -/

/-- The column of a path, joining tables as needed. -/
def resolve (catalog : Catalog) (root : Collection) (limit : Nat) (path : String) :
    Build Scope (Column × Property) := do
  let resolved ← Build.lookup (ColumnPath.follow catalog root limit path)
  let p ← get
  let (table, scope) ← Build.lookup (p.scope.reachAll 0 resolved.steps)
  set { p with scope }
  return (⟨table, resolved.property.columnName⟩, resolved.property)

/-- A test of a column against a text, by pattern. -/
def test (op : TextOperator) (column : Column) (path text : String) :
    Build Scope (Predicate Column) := do
  let marker ← Build.bind path (.text (Pattern.like op text))
  return .text .pattern (op = .lacks) column marker

/-- What the compiler of predicates asks of a relational target. -/
def dialog (catalog : Catalog) (root : Collection) (limit : Nat) : Dialog Scope Column where
  backend := "sql"
  resolve := resolve catalog root limit
  deciding := .connectives
  refused _ := none
  test := test
  unlike
    | .text test negated column marker => .text test (!negated) column marker
    | p => .negation p
  outside column markers := .membership true column markers
  blankness isBlank column _ := return .blankness isBlank column none

/-- The unquoted `*` stands for whole rows. -/
def star (_ : Bool) (t : Term) : Option (Expression Column) :=
  Expression.everything.ofStar (!t.isQuoted) t

/-! ## Plans -/

/-- A column of the result and its name, if it is given one. -/
structure Item where
  expression : Expression Column
  label : Option String
  deriving Repr, Inhabited

/-- What the result is ordered by. -/
inductive OrderBy where
  | label (name : String)
  | column (column : Column)
  deriving DecidableEq, Repr, Inhabited

/-- A relational statement before it is spelled. -/
structure Plan where
  distinct : Bool
  /-- No item stands for all columns of the root table. -/
  items : List Item
  table : String
  joins : List Join
  filters : List (Predicate Column)
  groups : List Column
  orders : List (OrderBy × Bool)
  rowCount : Bool
  window : Window
  values : Bindings
  deriving Repr, Inhabited

/-- A column that is asked for by a path is named by it, unless that is its name
anyway. -/
def plainItem (path : String) (column : Column) (property : Property) : Item :=
  ⟨.column column, if property.columnName = path then none else some path⟩

/-- A computed column is named by its alias or else by its expression. -/
def computedItem (p : Computed) (e : Expression Column) : Item :=
  ⟨e, some (if p.isAnonymous then p.expression.render else p.label.token)⟩

/-- What the result is ordered by: computed columns by their names, others by
their paths. -/
def orders (d : Dialog Scope Column) (r : Request) :
    List SortKey → Build Scope (List (OrderBy × Bool))
  | [] => return []
  | sort :: sorts => do
    let by_ ← if r.hasAlias sort.column then pure (OrderBy.label sort.column)
      else do
        let (column, _) ← d.resolve sort.column
        pure (OrderBy.column column)
    let rest ← orders d r sorts
    return (by_, sort.ascending) :: rest

/-- The parts of a plan, compiled in the order in which they stand in the
statement, so that values are bound in the order of their markers. -/
def parts (d : Dialog Scope Column) (r : Request) :
    Build Scope (List Item × List (Predicate Column) × List Column × List (OrderBy × Bool)) := do
  let plain ← d.columns r.plainColumns
  let computed ← d.computed star r.computed
  let filters ← d.predicates r.filters
  let groups ← d.groups r.groups
  let orders ← orders d r r.sorts
  let items := plain.map (fun (path, column, property) => plainItem path column property) ++
    computed.map fun (p, e) => computedItem p e
  return (items, filters, groups, orders)

/-- The plan of a request. -/
def plan (catalog : Catalog) (config : Config) (r : Request) : Except Fault Plan := do
  if r.after.isSome then throw (.unsupported "sql" "after" "offset, limit, page")
  let d := dialog catalog r.collection config.maxRelationshipDepth.toNat
  let ((items, filters, groups, orders), p) ← (parts d r).run ⟨[], .start⟩
  return {
    distinct := r.distinct || (p.scope.toMany && r.groups.isEmpty)
    items
    table := r.collection.tableName
    joins := p.scope.joins
    filters
    groups
    orders
    rowCount := r.rowCount
    window := r.page.window config
    values := p.values }

end ResourceQuery.Sql
