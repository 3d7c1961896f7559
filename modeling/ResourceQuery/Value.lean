import ResourceQuery.Catalog
import ResourceQuery.Json
import ResourceQuery.Term.Printer

set_option autoImplicit false

/-!
# Values

Literals, read by the declared type of the column they are compared with.
-/

namespace ResourceQuery

/-- A literal that is ready to be bound. -/
inductive Value where
  | null
  | bool (value : Bool)
  | int (value : Int)
  | float (value : Number.Binary64)
  | text (value : String)
  deriving DecidableEq, Repr, Inhabited

namespace Value

/-- The truth value of a literal. -/
def boolean? (s : String) : Option Bool :=
  let word := Text.lower s
  if word = "true" ∨ word = "1" then some true
  else if word = "false" ∨ word = "0" then some false
  else none

/-- A literal as a value of a type.  Blanks around numbers and truth values do
not count. -/
def ofText? (type : ColumnType) (raw : String) : Option Value :=
  match type with
  | .integer => (Number.signedWord? (Text.trim raw)).map int
  | .decimal => (Number.Binary64.read? (Text.trim raw)).map float
  | .boolean => (boolean? (Text.trim raw)).map bool
  | .string | .date | .timestamp => some (text raw)

/-- A literal as a value of a property. -/
def parse (p : Property) (raw : String) : Except Fault Value :=
  match ofText? p.type raw with
  | some value => .ok value
  | none => .error (.grammar (.invalidValue p.name raw p.type.name))

/-- A term as a value of a property: a literal, or the keyword `null`. -/
def cast (p : Property) (t : Term) : Except Fault Value :=
  if !t.isLeaf then .error (.grammar (.invalidValue p.name t.render "a literal"))
  else if t.isNull then .ok null
  else parse p t.token

/-- The value as text. -/
def shown : Value → String
  | null => "null"
  | bool value => if value then "true" else "false"
  | int value => toString value
  | float value => Number.Layout.plain.write value
  | text value => value

/-- The value as JSON. -/
def encode : Value → Json
  | null => .null
  | bool value => .bool value
  | int value => .whole value
  | float value => .real value
  | text value => .text value

end Value

/-- Values with the columns they were compared with, in the order in which they
were bound. -/
abbrev Bindings := List (String × Value)

/-- Bound values as JSON: an array of pairs. -/
def Bindings.encode (values : Bindings) : Json :=
  .array (values.map fun (column, value) => .array [.text column, value.encode])

end ResourceQuery
