import ResourceQuery.Catalog
import ResourceQuery.Text.Divide

set_option autoImplicit false

/-!
# Column paths

A column is named by a dotted path.  Where tables can be joined, all segments
but the last are relationships; where they cannot, the first segment is a
property and the others are fields nested in it.
-/

namespace ResourceQuery

/-- One relationship on the way: the path up to and with it as it was typed, the
relationship, and the collection that it leads to. -/
structure Step where
  route : String
  relationship : Relationship
  target : Collection
  deriving DecidableEq, Repr, Inhabited

/-- A path that was walked to its end. -/
structure Resolved where
  steps : List Step
  property : Property
  deriving DecidableEq, Repr, Inhabited

namespace ColumnPath

/-- The segments of a path. -/
def segments (path : String) : List String := Text.divide '.' path

/-- Follows relationships from a collection.  `walked` are the segments before
these. -/
def walk (catalog : Catalog) : Collection → List String → List String →
    Except Fault (List Step × Collection)
  | current, _, [] => .ok ([], current)
  | current, walked, name :: names =>
    match current.relationship? name with
    | none => .error (.catalog (.unknownRelationship current.name name))
    | some relationship => do
      let target ← catalog.collection relationship.related
      let walked := walked ++ [name]
      let (steps, final) ← walk catalog target walked names
      return (⟨".".intercalate walked, relationship, target⟩ :: steps, final)

/-- Resolves a path through relationships, at most `limit` of them. -/
def follow (catalog : Catalog) (root : Collection) (limit : Nat) (path : String) :
    Except Fault Resolved := do
  let parts := segments path
  let last := parts.getLastD ""
  let relationships := parts.dropLast
  if last = "" then throw (.grammar (.expectedColumn path))
  if limit < relationships.length then throw (.grammar (.depthExceeded limit path))
  let (steps, final) ← walk catalog root [] relationships
  let property ← final.property last
  return ⟨steps, property⟩

/-- Resolves a path inside one collection: the physical segments, and the
property that literals are read by.  Nothing is known of the type of a nested
field, so it is compared as text. -/
def inside (backend : String) (root : Collection) (path : String) :
    Except Fault (List String × Property) := do
  let parts := segments path
  let first := parts.headD ""
  let nested := parts.tail
  if nested ≠ [] ∧ (root.relationship? first).isSome then
    throw (.unsupported backend s!"relationship path '{path}'"
      "properties of the queried collection")
  if nested.contains "" then throw (.grammar (.expectedColumn path))
  let property ← root.property first
  let reading := if nested = [] then property else ⟨path, none, .string, true⟩
  return (property.columnName :: nested, reading)

end ColumnPath
end ResourceQuery
