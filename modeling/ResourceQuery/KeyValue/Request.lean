import ResourceQuery.KeyValue.KeyCondition

set_option autoImplicit false

/-!
# Key-value requests

A request with a key condition is a query and any other a scan.  The stand-ins
of names and values are explained in two maps beside the expressions.
-/

namespace ResourceQuery.KeyValue

/-- How a request goes through the table. -/
inductive Operation where
  | query
  | scan
  deriving DecidableEq, Repr, Inhabited

/-- The name of an operation. -/
def Operation.name : Operation → String
  | .query => "Query"
  | .scan => "Scan"

/-- A compiled key-value request. -/
structure Request where
  operation : Operation
  table : String
  /-- The secondary index of the key condition. -/
  index : Option String
  keyCondition : Option String
  filter : Option String
  projection : Option String
  /-- The stand-ins of names, in the order of their texts. -/
  names : List (String × String)
  /-- The markers of values, in the order of their texts. -/
  attributeValues : List (String × Value)
  /-- The bound values with their columns, in the order of binding. -/
  values : Bindings
  /-- The direction of the sort key, if an order was asked for. -/
  forward : Option Bool
  /-- The key after which the page starts. -/
  startKey : Option (List (String × Value))
  window : Window
  /-- Only the number of items is wanted. -/
  selectCount : Bool
  deriving DecidableEq, Repr, Inhabited

/-! ## Maps in the order of their keys -/

/-- Puts a field into a map that is ordered by its keys. -/
def insertField {α : Type} (key : String) (value : α) :
    List (String × α) → List (String × α)
  | [] => [(key, value)]
  | (k, v) :: fields =>
    if key = k then (key, value) :: fields
    else if key < k then (key, value) :: (k, v) :: fields
    else (k, v) :: insertField key value fields

/-- The map of the fields; of several with one key the last counts. -/
def fieldMap {α : Type} (fields : List (String × α)) : List (String × α) :=
  fields.foldl (fun map f => insertField f.1 f.2 map) []

/-! ## Limits of the store -/

/-- The parts of a request that the store does not have. -/
def checkSupported (r : ResourceQuery.Request) : Except Fault Unit :=
  match r.computed with
  | p :: _ => .error (.unsupported backend p.expression.token "includes")
  | [] =>
    if r.groups ≠ [] then .error (.unsupported backend "group" "includes")
    else if r.distinct then .error (.unsupported backend "distinct" "includes")
    else .ok ()

/-- The direction of the sort key.  Nothing else can be sorted by. -/
def direction (r : ResourceQuery.Request) (key : Option KeyPlan) :
    Except Fault (Option Bool) :=
  let refused := Fault.unsupported backend "order"
    "a single sort on the key condition's sort key"
  match r.sorts with
  | [] => .ok none
  | [sort] =>
    match key.bind KeyPlan.sortKey, r.collection.property? sort.column with
    | some sortKey, some property =>
      if sortKey.name = property.name then .ok (some sort.ascending) else .error refused
    | _, _ => .error refused
  | _ => .error refused

/-- The key after which the page starts, from the values of `after`. -/
def startKey (r : ResourceQuery.Request) : Except Fault (Option (List (String × Value))) :=
  match r.after with
  | none | some [] => .ok none
  | some after =>
    match r.collection.firstIndex? .primary with
    | none => .error (r.collection.misconfigured "no primary index for after(...)")
    | some primary => do
      let properties ← r.collection.keyProperties primary
      if properties.length ≠ after.length then
        throw (.grammar (.keyArity primary.name (",".intercalate (after.map Term.token))
          properties.length after.length))
      let fields ← (properties.zip after).mapM fun (property, t) => do
        let value ← Value.cast property t
        return (property.columnName, value)
      return some (fieldMap fields)

/-! ## Compilation -/

/-- A request before it is spelled. -/
structure Plan where
  projection : List Column
  key : Option KeyPlan
  filters : List (Predicate Column)
  deriving Repr, Inhabited

/-- The filter terms that are not part of the key condition. -/
def remaining (filters : List Term) (consumed : List Nat) : List Term :=
  (filters.zipIdx.filter fun (_, i) => !consumed.contains i).map Prod.fst

/-- The plan of a request, compiled in the order of binding. -/
def plan (d : Dialog Names Column) (r : ResourceQuery.Request) : Build Names Plan := do
  let columns ← d.columns r.includes
  let key ← keyCondition d r.collection r.filters (candidates r.collection)
  let consumed := (key.map KeyPlan.consumed).getD []
  let filters ← d.predicates (remaining r.filters consumed)
  return ⟨columns.map fun (_, column, _) => column, key, filters⟩

/-- Parts spelled out, unless there are none. -/
def expression? (glue : String) (parts : List (List Piece)) : Option String :=
  if parts.isEmpty then none else some (Piece.textAll spelling (Piece.join glue parts))

/-- The predicates spelled out, unless there are none. -/
def condition? (ps : List (Predicate Column)) : Option String :=
  expression? " AND " (Predicate.piecesAll phrasing ps)

/-- The stand-ins and the names they stand for. -/
def nameMap (names : Names) : List (String × String) :=
  fieldMap (names.zipIdx.map fun (name, i) => (s!"#name{i + 1}", name))

/-- The markers and the values they stand for. -/
def valueMap (values : Bindings) : List (String × Value) :=
  fieldMap (values.zipIdx.map fun ((_, value), i) => (spelling.marker (i + 1), value))

/-- The key-value request of a request. -/
def compile (config : Config) (r : ResourceQuery.Request) : Except Fault Request := do
  checkSupported r
  let (p, progress) ← (plan (dialog r.collection) r).run ⟨[], []⟩
  let forward ← direction r p.key
  let startKey ← startKey r
  return {
    operation := if p.key.isSome then .query else .scan
    table := r.collection.tableName
    index := p.key.bind fun key =>
      if key.index.kind = .primary then none else some key.index.name
    keyCondition := p.key.bind fun key => condition? key.condition
    filter := condition? p.filters
    projection := expression? ", " (p.projection.map columnPieces)
    names := nameMap progress.scope
    attributeValues := valueMap progress.values
    values := progress.values
    forward
    startKey
    window := r.page.window config
    selectCount := r.rowCount }

end ResourceQuery.KeyValue
