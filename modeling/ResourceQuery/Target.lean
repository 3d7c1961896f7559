import ResourceQuery.Document.Query
import ResourceQuery.KeyValue.Request
import ResourceQuery.Sql.Statement

set_option autoImplicit false

/-!
# Targets

The stores that a query can be compiled for, and what comes out.
-/

namespace ResourceQuery

/-- A store that queries are compiled for. -/
inductive Target where
  | sql (dialect : Sql.Dialect)
  | document
  | keyValue
  deriving DecidableEq, Repr, Inhabited

namespace Target

/-- The targets by their names in lower case. -/
def names : List (String × Target) :=
  [("postgres", .sql .postgres), ("postgresql", .sql .postgres), ("sqlite", .sql .sqlite),
   ("mysql", .sql .mysql), ("sqlserver", .sql .sqlserver), ("mssql", .sql .sqlserver),
   ("h2", .sql .h2), ("document", .document), ("cosmos", .document),
   ("keyvalue", .keyValue), ("dynamo", .keyValue)]

/-- What is said of a name that no target has. -/
def unknown (name : String) : String :=
  s!"unknown target '{name}' (expected postgres, mysql, sqlite, sqlserver, h2, document or keyvalue)"

/-- The target of a name, without regard to case. -/
def parse (name : String) : Except String Target :=
  let word := Text.lower name
  match names.find? fun n => n.1 == word with
  | some (_, target) => .ok target
  | none => .error (unknown word)

/-- The name of a target. -/
def name : Target → String
  | sql dialect => dialect.name
  | document => "document"
  | keyValue => "keyvalue"

/-- The name of the compiler behind a target. -/
def backend : Target → String
  | sql _ => "sql"
  | document => "document"
  | keyValue => "keyvalue"

end Target

/-! ## Compiled queries -/

/-- What a query is compiled to. -/
inductive Compiled where
  | sql (statement : Sql.Statement)
  | document (query : Document.Query)
  | keyValue (request : KeyValue.Request)
  deriving DecidableEq, Repr, Inhabited

/-- The values bound by a compiled query. -/
def Compiled.values : Compiled → Bindings
  | sql statement => statement.values
  | document query => query.values
  | keyValue request => request.values

/-- Compiles a query for a target. -/
def Target.compile (target : Target) (catalog : Catalog) (config : Config) (q : Query) :
    Except Fault Compiled :=
  let r := Request.ofQuery q
  match target with
  | .sql dialect => Compiled.sql <$> Sql.compile catalog config dialect r
  | .document => Compiled.document <$> Document.compile config r
  | .keyValue => Compiled.keyValue <$> KeyValue.compile config r

end ResourceQuery
