import ResourceQuery.Target

set_option autoImplicit false

/-!
# Targets: compiled queries as JSON
-/

namespace ResourceQuery

/-- A window as JSON. -/
def Window.encode (w : Window) : Json :=
  .object [("offset", .whole w.offset.toNat), ("limit", .whole w.limit.toNat)]

/-- A text or nothing as JSON. -/
def encodeText? : Option String → Json
  | some s => .text s
  | none => .null

/-- A map of values as JSON. -/
def encodeValues (fields : List (String × Value)) : Json :=
  .object (fields.map fun (name, value) => (name, value.encode))

/-- A compiled query as JSON. -/
def Compiled.encode : Compiled → Json
  | sql s => .object [
      ("target", .text "sql"),
      ("dialect", .text s.dialect.name),
      ("sql", .text s.sql),
      ("values", Bindings.encode s.values),
      ("count_sql", encodeText? s.countSql),
      ("window", s.window.encode)]
  | document d => .object [
      ("target", .text "document"),
      ("query", .text d.query),
      ("parameters", .array (d.parameters.map fun (name, value) =>
        .object [("name", .text name), ("value", value.encode)])),
      ("values", Bindings.encode d.values),
      ("partition_key", (d.partitionKey.map Value.encode).getD .null),
      ("continuation", encodeText? d.continuation),
      ("count_query", encodeText? d.countQuery),
      ("window", d.window.encode)]
  | keyValue k => .object [
      ("target", .text "keyvalue"),
      ("operation", .text k.operation.name),
      ("table_name", .text k.table),
      ("index_name", encodeText? k.index),
      ("key_condition_expression", encodeText? k.keyCondition),
      ("filter_expression", encodeText? k.filter),
      ("projection_expression", encodeText? k.projection),
      ("expression_attribute_names", .object (k.names.map fun (n, a) => (n, .text a))),
      ("expression_attribute_values", encodeValues k.attributeValues),
      ("values", Bindings.encode k.values),
      ("scan_index_forward", (k.forward.map Json.bool).getD .null),
      ("exclusive_start_key", (k.startKey.map encodeValues).getD .null),
      ("limit", .whole k.window.limit.toNat),
      ("offset", .whole k.window.offset.toNat),
      ("select_count", .bool k.selectCount)]

end ResourceQuery
