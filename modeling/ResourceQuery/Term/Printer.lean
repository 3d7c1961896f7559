import ResourceQuery.Term

set_option autoImplicit false

/-!
# Terms: the canonical text

A term is written in call form, without blanks between its parts.  Bare words
escape what would divide them, quoted words escape their quote.
-/

namespace ResourceQuery.Term

/-- A text in quotes; the quote character itself is escaped. -/
def writeQuoted (q : Quote) (cs : List Char) : List Char :=
  q.char :: cs.flatMap (fun c => if c = q.char then ['\\', c] else [c]) ++ [q.char]

/-- A character of a bare text.  Blanks are escaped only at the edges. -/
def writeBareChar (edge : Bool) (c : Char) : List Char :=
  if Token.isStructural c && (!Text.isBlank c || edge) then ['\\', c] else [c]

/-- The characters of a bare text after the first. -/
def writeBareRest : List Char → List Char
  | [] => []
  | [c] => writeBareChar true c
  | c :: cs => writeBareChar false c ++ writeBareRest cs

/-- A text without quotes; the empty text has to be quoted. -/
def writeBare : List Char → List Char
  | [] => ['"', '"']
  | c :: cs => writeBareChar true c ++ writeBareRest cs

/-- The word of a term as it is written. -/
def writeWord (token : String) : Option Quote → List Char
  | some q => writeQuoted q token.toList
  | none => writeBare token.toList

mutual

/-- The canonical call form of a term. -/
def write : Term → List Char
  | node t q [] => writeWord t q
  | node t q (c :: cs) => writeWord t q ++ '(' :: write c ++ writeRest cs ++ [')']

/-- The arguments after the first, each after a comma. -/
def writeRest : List Term → List Char
  | [] => []
  | t :: ts => ',' :: write t ++ writeRest ts

end

/-- The canonical text of a term. -/
def render (t : Term) : String := String.ofList t.write

end ResourceQuery.Term
