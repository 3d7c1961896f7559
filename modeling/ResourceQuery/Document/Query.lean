import ResourceQuery.Document.Spelling

set_option autoImplicit false

/-!
# Document queries

The compiled query with its parameters, and the partition it can be sent to.
-/

namespace ResourceQuery.Document

/-- A compiled document query. -/
structure Query where
  query : String
  /-- The parameters and their values, in order. -/
  parameters : List (String × Value)
  /-- The same values with the columns they were compared with. -/
  values : Bindings
  /-- The value of an equation on the partition key. -/
  partitionKey : Option Value
  /-- Where an earlier page ended. -/
  continuation : Option String
  /-- The query that counts all rows, if it was asked for. -/
  countQuery : Option String
  window : Window
  deriving DecidableEq, Repr, Inhabited

/-! ## Partition keys -/

/-- The value that a filter term gives to a property, if it is an equation of
the property with a value that is neither `null` nor a pattern. -/
def equated? (c : Collection) (p : Property) (t : Term) : Option Term :=
  if t.hasToken "eq" then
    match t.column, t.value with
    | .ok path, .ok value =>
      let isProperty := (c.property? path).any fun q => q.name = p.name
      if isProperty && !value.isPattern && !value.isNull then some value else none
    | _, _ => none
  else none

/-- The value of the partition key, if a filter term gives it. -/
def partitionKey (r : Request) : Except Fault (Option Value) :=
  match r.collection.firstIndex? .partition with
  | none => .ok none
  | some index => do
    let properties ← r.collection.keyProperties index
    match properties with
    | [] => return none
    | property :: _ =>
      match r.filters.findSome? (equated? r.collection property) with
      | none => return none
      | some value => return some (← Value.cast property value)

/-! ## Compilation -/

/-- The parameters of bound values. -/
def parameters (values : Bindings) : List (String × Value) :=
  values.zipIdx.map fun ((_, value), i) => (spelling.marker (i + 1), value)

/-- The document query of a request. -/
def compile (config : Config) (r : Request) : Except Fault Query := do
  let (p, progress) ← (plan (dialog r.collection) r).run ⟨[], ()⟩
  let window := r.page.window config
  let partitionKey ← partitionKey r
  return {
    query := Piece.textAll spelling (p.pieces r.distinct window)
    parameters := parameters progress.values
    values := progress.values
    partitionKey
    continuation := (r.after.bind List.head?).map Term.token
    countQuery := if r.rowCount then some (Piece.textAll spelling p.countPieces) else none
    window }

end ResourceQuery.Document
