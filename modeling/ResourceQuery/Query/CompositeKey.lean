import ResourceQuery.Fault
import ResourceQuery.Text.Hexadecimal

set_option autoImplicit false

/-!
# Query: composite keys

A key names a row by the components of an index, joined with `~`.  A backslash
before a character stands for the character itself, and `*` with four
hexadecimal digits for the character with that code point.
-/

namespace ResourceQuery.CompositeKey

/-- Characters that are escaped in a component. -/
def isReserved (c : Char) : Bool := c == '~' || c == ',' || c == '\\' || c == '*'

/-- A component with its reserved characters escaped. -/
def encodePart (cs : List Char) : List Char :=
  cs.flatMap fun c => if isReserved c then ['\\', c] else [c]

/-- The components, escaped and joined. -/
def encodeChars : List (List Char) → List Char
  | [] => []
  | [part] => encodePart part
  | part :: parts => encodePart part ++ '~' :: encodeChars parts

/-- The key of the components. -/
def encode (parts : List String) : String :=
  String.ofList (encodeChars (parts.map String.toList))

/-! ## Decoding -/

/-- The character whose code point four hexadecimal digits write. -/
def hexChar? (a b c d : Char) : Option Char := do
  let code ← Text.hexCode? a b c d
  if 0xd800 ≤ code ∧ code < 0xe000 then none else some (Char.ofNat code)

/-- A character in front of the first component. -/
def extend (c : Char) : List (List Char) → List (List Char)
  | [] => [[c]]
  | part :: parts => (c :: part) :: parts

/-- The components of a key; none if it ends in a lone backslash. -/
def components? : List Char → Option (List (List Char))
  | [] => some [[]]
  | '\\' :: cs =>
    match cs with
    | [] => none
    | c :: rest => (components? rest).map (extend c)
  | '*' :: a :: b :: c :: d :: rest =>
    match hexChar? a b c d with
    | some char => (components? rest).map (extend char)
    | none => (components? (a :: b :: c :: d :: rest)).map (extend '*')
  | '~' :: cs => (components? cs).map ([] :: ·)
  | c :: cs => (components? cs).map (extend c)

/-- The components of a key for an index with `arity` columns. -/
def decode (index key : String) (arity : Nat) : Except Fault (List String) :=
  match components? key.toList with
  | none => .error (.grammar (.invalidKeyEscape key))
  | some parts =>
    if parts.length ≠ arity then .error (.grammar (.keyArity index key arity parts.length))
    else if parts.any List.isEmpty then .error (.grammar (.emptyKeyComponent index key))
    else .ok (parts.map String.ofList)

end ResourceQuery.CompositeKey
