import ResourceQuery.Fault
import ResourceQuery.Text.Ascii

set_option autoImplicit false

/-!
# Catalogs

What the compiler knows of the data: the collections, their properties, their
indexes and their relationships to one another.  Names are looked up without
regard to ASCII case, and of several with one name the first counts.
-/

namespace ResourceQuery

/-- The declared type of a property; literals are read by it. -/
inductive ColumnType where
  | string
  | integer
  | decimal
  | boolean
  | date
  | timestamp
  deriving DecidableEq, Repr, Inhabited

/-- The name of a type. -/
def ColumnType.name : ColumnType → String
  | .string => "string"
  | .integer => "integer"
  | .decimal => "decimal"
  | .boolean => "boolean"
  | .date => "date"
  | .timestamp => "timestamp"

/-- An attribute of a collection.  The column is the property's physical name,
and is the logical one if it is not given. -/
structure Property where
  name : String
  column : Option String
  type : ColumnType
  nullable : Bool
  deriving DecidableEq, Repr, Inhabited

/-- The physical name of a property. -/
def Property.columnName (p : Property) : String := p.column.getD p.name

/-- What an index is for. -/
inductive Index.Kind where
  /-- The primary key; in a key-value store the first column is the hash key and
  the second one the sort key. -/
  | primary
  | unique
  /-- The partition key of a document store. -/
  | partition
  /-- A secondary index, not unique. -/
  | secondary
  deriving DecidableEq, Repr, Inhabited

/-- The name of a kind of index. -/
def Index.Kind.name : Index.Kind → String
  | .primary => "primary"
  | .unique => "unique"
  | .partition => "partition"
  | .secondary => "secondary"

/-- An ordered list of properties. -/
structure Index where
  name : String
  kind : Index.Kind
  columns : List String
  deriving DecidableEq, Repr, Inhabited

/-- The index addresses at most one row. -/
def Index.isUnique (i : Index) : Bool := i.kind = .primary || i.kind = .unique

/-- How many rows stand on either side of a relationship. -/
inductive Cardinality where
  | manyToOne
  | oneToMany
  | manyToMany
  deriving DecidableEq, Repr, Inhabited

/-- The name of a cardinality. -/
def Cardinality.name : Cardinality → String
  | .manyToOne => "many-to-one"
  | .oneToMany => "one-to-many"
  | .manyToMany => "many-to-many"

/-- Following the relationship may give several rows. -/
def Cardinality.isToMany (c : Cardinality) : Bool := c ≠ .manyToOne

/-- Two physical columns that a join compares. -/
structure ColumnPair where
  home : String
  foreign : String
  deriving DecidableEq, Repr, Inhabited

/-- The table between the two sides of a many-to-many relationship. -/
structure Link where
  table : String
  keys : List ColumnPair
  deriving DecidableEq, Repr, Inhabited

/-- A way from one collection to another. -/
structure Relationship where
  name : String
  cardinality : Cardinality
  related : String
  keys : List ColumnPair
  through : Option Link
  deriving DecidableEq, Repr, Inhabited

/-- A logical entity over one table or container. -/
structure Collection where
  name : String
  table : Option String
  properties : List Property
  indexes : List Index
  relationships : List Relationship
  deriving DecidableEq, Repr, Inhabited

/-- All collections. -/
structure Catalog where
  collections : List Collection
  deriving DecidableEq, Repr, Inhabited

namespace Collection

/-- The physical name of a collection. -/
def tableName (c : Collection) : String := c.table.getD c.name

/-- A property by its name or, failing that, by its column. -/
def property? (c : Collection) (name : String) : Option Property :=
  (c.properties.find? fun p => Text.sameWord p.name name).or
    (c.properties.find? fun p => Text.sameWord p.columnName name)

/-- A property that has to exist. -/
def property (c : Collection) (name : String) : Except Fault Property :=
  match c.property? name with
  | some p => .ok p
  | none => .error (.catalog (.unknownColumn c.name name))

/-- An index by its name. -/
def index? (c : Collection) (name : String) : Option Index :=
  c.indexes.find? fun i => Text.sameWord i.name name

/-- An index that has to exist. -/
def index (c : Collection) (name : String) : Except Fault Index :=
  match c.index? name with
  | some i => .ok i
  | none => .error (.catalog (.unknownIndex c.name name))

/-- A relationship by its name. -/
def relationship? (c : Collection) (name : String) : Option Relationship :=
  c.relationships.find? fun r => Text.sameWord r.name name

/-- The first index of a kind. -/
def firstIndex? (c : Collection) (kind : Index.Kind) : Option Index :=
  c.indexes.find? fun i => i.kind = kind

/-- The collection's own description is at fault. -/
def misconfigured (c : Collection) (reason : String) : Fault :=
  .catalog (.misconfigured c.name reason)

/-- The property of one column of an index. -/
def keyProperty (c : Collection) (i : Index) (column : String) : Except Fault Property :=
  match c.property? column with
  | some p => .ok p
  | none => .error (c.misconfigured s!"index '{i.name}' references unknown property '{column}'")

/-- The properties of an index, in its order; there is at least one. -/
def keyProperties (c : Collection) (i : Index) : Except Fault (List Property) :=
  if i.columns = [] then .error (c.misconfigured s!"index '{i.name}' has no columns")
  else i.columns.mapM (c.keyProperty i)

end Collection

namespace Catalog

/-- A collection by its name. -/
def collection? (c : Catalog) (name : String) : Option Collection :=
  c.collections.find? fun x => Text.sameWord x.name name

/-- A collection that has to exist. -/
def collection (c : Catalog) (name : String) : Except Fault Collection :=
  match c.collection? name with
  | some x => .ok x
  | none => .error (.catalog (.unknownCollection name))

end Catalog
end ResourceQuery
