import ResourceQuery.Number.Layout

set_option autoImplicit false

/-!
# JSON

Values of the data format, and their text.  Objects keep their fields in order.
Whole numbers and numbers with a fraction or an exponent are kept apart, because
a field that wants a whole number takes only the former.
-/

namespace ResourceQuery

/-- A JSON value. -/
inductive Json where
  | null
  | bool (value : Bool)
  | whole (value : Int)
  | real (value : Number.Binary64)
  | text (value : String)
  | array (items : List Json)
  | object (fields : List (String × Json))
  /-- What is well formed and stands for no value: a number out of range, a text
  with half of a surrogate pair, or an object with such a text for a name. -/
  | beyond
  deriving Repr, Inhabited

namespace Json

/-- The field of an object by name; the first one counts. -/
def field? : Json → String → Option Json
  | object fields, name => (fields.find? fun f => f.1 == name).map Prod.snd
  | _, _ => none

mutual

/-- Of several fields with one name in an object, the last one is kept, in the
place of the first. -/
def lastFields : Json → Json
  | array items => array (lastFieldsItems items)
  | object fields => object (lastFieldsPairs fields)
  | json => json

/-- The items with repeated fields settled. -/
def lastFieldsItems : List Json → List Json
  | [] => []
  | item :: items => lastFields item :: lastFieldsItems items

/-- The fields with repeated ones settled. -/
def lastFieldsPairs : List (String × Json) → List (String × Json)
  | [] => []
  | (name, value) :: fields =>
    let rest := lastFieldsPairs fields
    match rest.find? fun f => f.1 == name with
    | some later => later :: rest.filter fun f => f.1 != name
    | none => (name, lastFields value) :: rest

end

/-! ## Text -/

/-- A lower-case hexadecimal digit. -/
def hexDigit (n : Nat) : Char := "0123456789abcdef".toList.getD n '0'

/-- A character inside a quoted text. -/
def escapeChar (c : Char) : List Char :=
  if c = '"' then ['\\', '"']
  else if c = '\\' then ['\\', '\\']
  else if c = '\x08' then ['\\', 'b']
  else if c = '\t' then ['\\', 't']
  else if c = '\n' then ['\\', 'n']
  else if c = '\x0c' then ['\\', 'f']
  else if c = '\r' then ['\\', 'r']
  else if c.toNat < 0x20 then
    ['\\', 'u', '0', '0', hexDigit (c.toNat / 16), hexDigit (c.toNat % 16)]
  else [c]

/-- A text in double quotes. -/
def quoted (s : String) : String :=
  "\"" ++ String.ofList (s.toList.flatMap escapeChar) ++ "\""

/-- The opening brace of an object. -/
def openBrace : String := "\x7b"

/-- The closing brace of an object. -/
def closeBrace : String := "\x7d"

mutual

/-- The text of a value without blanks. -/
def compact : Json → String
  | null => "null"
  | bool value => if value then "true" else "false"
  | whole value => toString value
  | real value => Number.Layout.exchange.write value
  | text value => quoted value
  | array items => "[" ++ ",".intercalate (compactItems items) ++ "]"
  | object fields => openBrace ++ ",".intercalate (compactFields fields) ++ closeBrace
  | beyond => "null"

/-- The texts of the items. -/
def compactItems : List Json → List String
  | [] => []
  | item :: items => compact item :: compactItems items

/-- The texts of the fields. -/
def compactFields : List (String × Json) → List String
  | [] => []
  | (name, value) :: fields => (quoted name ++ ":" ++ compact value) :: compactFields fields

end

/-- Parts on lines of their own between two brackets, `indent` blanks deep. -/
def block (indent : Nat) (opening closing : String) (parts : List String) : String :=
  if parts.isEmpty then opening ++ closing
  else
    let margin := "\n" ++ String.ofList (List.replicate (indent + 2) ' ')
    opening ++ margin ++ ("," ++ margin).intercalate parts ++
      "\n" ++ String.ofList (List.replicate indent ' ') ++ closing

mutual

/-- The text of a value on indented lines. -/
def pretty (indent : Nat) : Json → String
  | array items => block indent "[" "]" (prettyItems (indent + 2) items)
  | object fields => block indent openBrace closeBrace (prettyFields (indent + 2) fields)
  | json => compact json

/-- The texts of the items. -/
def prettyItems (indent : Nat) : List Json → List String
  | [] => []
  | item :: items => pretty indent item :: prettyItems indent items

/-- The texts of the fields. -/
def prettyFields (indent : Nat) : List (String × Json) → List String
  | [] => []
  | (name, value) :: fields =>
    (quoted name ++ ": " ++ pretty indent value) :: prettyFields indent fields

end

end Json
end ResourceQuery
