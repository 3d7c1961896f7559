set_option autoImplicit false

/-!
# Statements: pieces of text

A statement is put together from pieces that say what they are: words of the
target's language, names from the catalog or the query, markers of bound values.
Only at the end are the pieces spelled out, so that what is a name can never be
taken for a word of the language.
-/

namespace ResourceQuery

/-- A piece of a statement. -/
inductive Piece where
  /-- Keywords, operators and punctuation. -/
  | fixed (text : String)
  /-- A name, quoted in the target's way. -/
  | name (text : String)
  /-- The alias of a joined table. -/
  | table (index : Nat)
  /-- The stand-in of an attribute name. -/
  | field (index : Nat)
  /-- The marker of the bound value with this number, from one on. -/
  | marker (index : Nat)
  /-- A numeral of the query. -/
  | numeral (text : String)
  /-- An alias of the query, written as it is. -/
  | label (text : String)
  deriving DecidableEq, Repr, Inhabited

/-- How a target spells names and markers. -/
structure Spelling where
  name : String → String
  marker : Nat → String

namespace Piece

/-- A piece spelled out. -/
def text (s : Spelling) : Piece → String
  | fixed text => text
  | name text => s.name text
  | table index => s!"t{index}"
  | field index => s!"#name{index}"
  | marker index => s.marker index
  | numeral text => text
  | label text => text

/-- Pieces spelled out one after the other. -/
def textAll (s : Spelling) (pieces : List Piece) : String :=
  String.join (pieces.map (text s))

/-- Parts with a fixed text between each two of them. -/
def join (glue : String) : List (List Piece) → List Piece
  | [] => []
  | [part] => part
  | part :: parts => part ++ fixed glue :: join glue parts

/-- A clause: its parts behind an opening.  Without parts it is left out. -/
def clause (opening glue : String) (parts : List (List Piece)) : List Piece :=
  if parts.isEmpty then [] else fixed opening :: join glue parts

end Piece
end ResourceQuery
