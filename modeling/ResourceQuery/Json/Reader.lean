import ResourceQuery.Json
import ResourceQuery.Text.Hexadecimal

set_option autoImplicit false

/-!
# JSON: reading

A reader takes characters and gives a value and the characters after it.  The
first argument of the mutually recursive readers bounds their number of calls;
`Json.parse?` supplies a bound that the length of the text cannot exceed.
-/

namespace ResourceQuery.Json

/-- The characters after leading blanks. -/
def skipBlanks (cs : List Char) : List Char :=
  cs.dropWhile fun c => c == ' ' || c == '\t' || c == '\n' || c == '\r'

/-- The characters after a fixed beginning. -/
def after? : List Char → List Char → Option (List Char)
  | [], cs => some cs
  | e :: es, c :: cs => if e = c then after? es cs else none
  | _ :: _, [] => none

/-! ## Numbers -/

/-- The whole part of a number: `0`, or digits that do not start with `0`. -/
def wholePart? (cs : List Char) : Option (List Char × List Char) :=
  match cs.takeWhile Number.isDigit with
  | [] => none
  | '0' :: _ :: _ => none
  | digits => some (digits, cs.dropWhile Number.isDigit)

/-- The fraction of a number, if it has one. -/
def fractionPart? : List Char → Option (List Char × List Char)
  | '.' :: cs =>
    match cs.takeWhile Number.isDigit with
    | [] => none
    | digits => some ('.' :: digits, cs.dropWhile Number.isDigit)
  | cs => some ([], cs)

/-- The exponent of a number, if it has one. -/
def exponentPart? : List Char → Option (List Char × List Char)
  | [] => some ([], [])
  | c :: cs =>
    if c = 'e' ∨ c = 'E' then
      let (sign, rest) := match cs with
        | '+' :: rest => (['+'], rest)
        | '-' :: rest => (['-'], rest)
        | rest => ([], rest)
      match rest.takeWhile Number.isDigit with
      | [] => none
      | digits => some (c :: sign ++ digits, rest.dropWhile Number.isDigit)
    else some ([], c :: cs)

/-- The number that a literal stands for.  A literal without fraction and
exponent is whole if it fits 64 bits, signed or not; minus zero is not whole. -/
def numberOf (negative isWhole : Bool) (literal : List Char) : Json :=
  let n := Number.ofDigits 0 literal
  if isWhole && negative && n ≠ 0 && n ≤ Number.wordCount 63 then whole (-(n : Int))
  else if isWhole && !negative && n < Number.wordCount 64 then whole n
  else
    let sign := if negative then ['-'] else []
    match Number.Binary64.read? (String.ofList (sign ++ literal)) with
    | some value => real value
    | none => beyond

/-- A number. -/
def number? (cs : List Char) : Option (Json × List Char) := do
  let (negative, cs) := match cs with
    | '-' :: rest => (true, rest)
    | _ => (false, cs)
  let (digits, cs) ← wholePart? cs
  let (fraction, cs) ← fractionPart? cs
  let (exponent, cs) ← exponentPart? cs
  return (numberOf negative (fraction.isEmpty && exponent.isEmpty)
    (digits ++ fraction ++ exponent), cs)

/-! ## Texts -/

/-- Four hexadecimal digits. -/
def hex4? : List Char → Option (Nat × List Char)
  | a :: b :: c :: d :: cs => (Text.hexCode? a b c d).map (·, cs)
  | _ => none

/-- The character of a one-letter escape. -/
def escaped? (c : Char) : Option Char :=
  match c with
  | '"' => some '"'
  | '\\' => some '\\'
  | '/' => some '/'
  | 'b' => some '\x08'
  | 'f' => some '\x0c'
  | 'n' => some '\n'
  | 'r' => some '\r'
  | 't' => some '\t'
  | _ => none

/-- The characters of a text with halves of surrogate pairs marked by `none`. -/
abbrev Marked := List (Option Char)

/-- A text after its opening quote, up to and with the closing one. -/
def textTail : Nat → List Char → Option (Marked × List Char)
  | 0, _ => none
  | _ + 1, [] => none
  | fuel + 1, c :: cs =>
    if c = '"' then some ([], cs)
    else if c = '\\' then
      match cs with
      | [] => none
      | 'u' :: rest => do
        let (unit, rest) ← hex4? rest
        if 0xd800 ≤ unit ∧ unit < 0xdc00 then
          match rest with
          | '\\' :: 'u' :: rest' =>
            let (low, rest'') ← hex4? rest'
            if 0xdc00 ≤ low ∧ low < 0xe000 then
              let code := 0x10000 + (unit - 0xd800) * 0x400 + (low - 0xdc00)
              let (chars, rest) ← textTail fuel rest''
              return (some (Char.ofNat code) :: chars, rest)
            else
              let (chars, rest) ← textTail fuel rest
              return (none :: chars, rest)
          | _ =>
            let (chars, rest) ← textTail fuel rest
            return (none :: chars, rest)
        else if 0xdc00 ≤ unit ∧ unit < 0xe000 then
          let (chars, rest) ← textTail fuel rest
          return (none :: chars, rest)
        else
          let (chars, rest) ← textTail fuel rest
          return (some (Char.ofNat unit) :: chars, rest)
      | e :: rest => do
        let char ← escaped? e
        let (chars, rest) ← textTail fuel rest
        return (some char :: chars, rest)
    else if c.toNat < 0x20 then none
    else do
      let (chars, rest) ← textTail fuel cs
      return (some c :: chars, rest)

/-- The text of marked characters, if none of them is half of a pair. -/
def ofMarked (marked : Marked) : Option String :=
  (marked.mapM id).map String.ofList

/-! ## Values -/

/-- A field whose name is a text. -/
def named? (field : Option String × Json) : Option (String × Json) :=
  field.1.map fun name => (name, field.2)

/-- The object of fields, if all of their names are texts. -/
def ofFields (fields : List (Option String × Json)) : Json :=
  (fields.mapM named?).elim beyond object

mutual

/-- A value after blanks. -/
def valueAt : Nat → List Char → Option (Json × List Char)
  | 0, _ => none
  | fuel + 1, cs =>
    match skipBlanks cs with
    | [] => none
    | '"' :: rest => do
      let (marked, rest) ← textTail (rest.length + 1) rest
      return ((ofMarked marked).elim beyond text, rest)
    | '[' :: rest =>
      match skipBlanks rest with
      | ']' :: rest => some (array [], rest)
      | _ => do
        let (items, rest) ← itemsAt fuel rest
        return (array items, rest)
    | '\x7b' :: rest =>
      match skipBlanks rest with
      | '\x7d' :: rest => some (object [], rest)
      | _ => do
        let (fields, rest) ← fieldsAt fuel rest
        return (ofFields fields, rest)
    | c :: rest =>
      if c = 'n' then (after? "ull".toList rest).map fun rest => (null, rest)
      else if c = 't' then (after? "rue".toList rest).map fun rest => (bool true, rest)
      else if c = 'f' then (after? "alse".toList rest).map fun rest => (bool false, rest)
      else number? (c :: rest)

/-- Items up to and with the closing bracket. -/
def itemsAt : Nat → List Char → Option (List Json × List Char)
  | 0, _ => none
  | fuel + 1, cs => do
    let (item, rest) ← valueAt fuel cs
    match skipBlanks rest with
    | ',' :: rest =>
      let (items, rest) ← itemsAt fuel rest
      return (item :: items, rest)
    | ']' :: rest => return ([item], rest)
    | _ => none

/-- Fields up to and with the closing brace.  A name with half of a surrogate
pair is no text; where the object is passed over, that does not matter. -/
def fieldsAt : Nat → List Char → Option (List (Option String × Json) × List Char)
  | 0, _ => none
  | fuel + 1, cs =>
    match skipBlanks cs with
    | '"' :: rest => do
      let (marked, rest) ← textTail (rest.length + 1) rest
      let name := ofMarked marked
      match skipBlanks rest with
      | ':' :: rest =>
        let (value, rest) ← valueAt fuel rest
        match skipBlanks rest with
        | ',' :: rest =>
          let (fields, rest) ← fieldsAt fuel rest
          return ((name, value) :: fields, rest)
        | '\x7d' :: rest => return ([(name, value)], rest)
        | _ => none
      | _ => none
    | _ => none

end

/-- The value of a whole text. -/
def parse? (s : String) : Option Json := do
  let cs := s.toList
  let (value, rest) ← valueAt (2 * cs.length + 2) cs
  match skipBlanks rest with
  | [] => return value
  | _ => none

end ResourceQuery.Json
