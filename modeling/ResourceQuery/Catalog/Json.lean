import ResourceQuery.Catalog
import ResourceQuery.Json.Record

set_option autoImplicit false

/-!
# Catalogs as JSON

`encode` writes every field; `decode?` lets optional fields be left out.
-/

namespace ResourceQuery

open Json (Record)

/-! ## Types, kinds and cardinalities -/

/-- The types with their names. -/
def ColumnType.choices : List (String × ColumnType) :=
  [.string, .integer, .decimal, .boolean, .date, .timestamp].map fun t => (t.name, t)

/-- The kinds of index with their names. -/
def Index.Kind.choices : List (String × Index.Kind) :=
  [.primary, .unique, .partition, .secondary].map fun k => (k.name, k)

/-- The cardinalities with their names. -/
def Cardinality.choices : List (String × Cardinality) :=
  [.manyToOne, .oneToMany, .manyToMany].map fun c => (c.name, c)

/-! ## Properties -/

/-- A property as JSON. -/
def Property.encode (p : Property) : Json :=
  .object [("name", .text p.name), ("column", Json.ofText? p.column),
    ("type", .text p.type.name), ("nullable", .bool p.nullable)]

/-- A property from JSON. -/
def Property.decode? (json : Json) : Option Property := do
  let r ← json.record? ["name", "column", "type", "nullable"]
  return {
    name := ← r.required "name" Json.text?
    column := ← r.optional "column" none (Json.nullable? Json.text?)
    type := ← r.optional "type" .string (Json.oneOf? ColumnType.choices)
    nullable := ← r.optional "nullable" true Json.bool? }

/-! ## Indexes -/

/-- An index as JSON. -/
def Index.encode (i : Index) : Json :=
  .object [("name", .text i.name), ("kind", .text i.kind.name),
    ("columns", .array (i.columns.map .text))]

/-- An index from JSON. -/
def Index.decode? (json : Json) : Option Index := do
  let r ← json.record? ["name", "kind", "columns"]
  return {
    name := ← r.required "name" Json.text?
    kind := ← r.required "kind" (Json.oneOf? Index.Kind.choices)
    columns := ← r.required "columns" (Json.list? Json.text?) }

/-! ## Relationships -/

/-- A key pair as JSON. -/
def ColumnPair.encode (k : ColumnPair) : Json :=
  .object [("local", .text k.home), ("foreign", .text k.foreign)]

/-- A key pair from JSON. -/
def ColumnPair.decode? (json : Json) : Option ColumnPair := do
  let r ← json.record? ["local", "foreign"]
  return {
    home := ← r.required "local" Json.text?
    foreign := ← r.required "foreign" Json.text? }

/-- A link table as JSON. -/
def Link.encode (l : Link) : Json :=
  .object [("table", .text l.table), ("keys", .array (l.keys.map ColumnPair.encode))]

/-- A link table from JSON. -/
def Link.decode? (json : Json) : Option Link := do
  let r ← json.record? ["table", "keys"]
  return {
    table := ← r.required "table" Json.text?
    keys := ← r.required "keys" (Json.list? ColumnPair.decode?) }

/-- A relationship as JSON. -/
def Relationship.encode (r : Relationship) : Json :=
  .object [("name", .text r.name), ("cardinality", .text r.cardinality.name),
    ("related", .text r.related), ("keys", .array (r.keys.map ColumnPair.encode)),
    ("through", (r.through.map Link.encode).getD .null)]

/-- A relationship from JSON. -/
def Relationship.decode? (json : Json) : Option Relationship := do
  let r ← json.record? ["name", "cardinality", "related", "keys", "through"]
  return {
    name := ← r.required "name" Json.text?
    cardinality := ← r.required "cardinality" (Json.oneOf? Cardinality.choices)
    related := ← r.required "related" Json.text?
    keys := ← r.required "keys" (Json.list? ColumnPair.decode?)
    through := ← r.optional "through" none (Json.nullable? Link.decode?) }

/-! ## Collections and catalogs -/

/-- A collection as JSON. -/
def Collection.encode (c : Collection) : Json :=
  .object [("name", .text c.name), ("table", Json.ofText? c.table),
    ("properties", .array (c.properties.map Property.encode)),
    ("indexes", .array (c.indexes.map Index.encode)),
    ("relationships", .array (c.relationships.map Relationship.encode))]

/-- A collection from JSON. -/
def Collection.decode? (json : Json) : Option Collection := do
  let r ← json.record? ["name", "table", "properties", "indexes", "relationships"]
  return {
    name := ← r.required "name" Json.text?
    table := ← r.optional "table" none (Json.nullable? Json.text?)
    properties := ← r.optional "properties" [] (Json.list? Property.decode?)
    indexes := ← r.optional "indexes" [] (Json.list? Index.decode?)
    relationships := ← r.optional "relationships" [] (Json.list? Relationship.decode?) }

/-- A catalog as JSON. -/
def Catalog.encode (c : Catalog) : Json :=
  .object [("collections", .array (c.collections.map Collection.encode))]

/-- A catalog from JSON. -/
def Catalog.decode? (json : Json) : Option Catalog := do
  let r ← json.record? ["collections"]
  return { collections := ← r.required "collections" (Json.list? Collection.decode?) }

end ResourceQuery
