import ResourceQuery.Config
import ResourceQuery.Statement.Piece

set_option autoImplicit false

/-!
# SQL: dialects

Where the relational targets differ: the quotes of names, the markers of bound
values, the escape character of patterns and the words for paging.
-/

namespace ResourceQuery.Sql

/-- A relational target. -/
inductive Dialect where
  | postgres
  | sqlite
  | mysql
  | sqlserver
  | h2
  deriving DecidableEq, Repr, Inhabited

namespace Dialect

/-- The name of a dialect. -/
def name : Dialect → String
  | postgres => "postgres"
  | sqlite => "sqlite"
  | mysql => "mysql"
  | sqlserver => "sqlserver"
  | h2 => "h2"

/-! ## Names -/

/-- The quote before a name. -/
def openQuote : Dialect → Char
  | mysql => '\x60'
  | sqlserver => '['
  | _ => '"'

/-- The quote after a name. -/
def closeQuote : Dialect → Char
  | mysql => '\x60'
  | sqlserver => ']'
  | _ => '"'

/-- The characters of a name, with the closing quote doubled. -/
def quoteChars (d : Dialect) (cs : List Char) : List Char :=
  d.openQuote ::
    cs.flatMap (fun c => if c = d.closeQuote then [c, c] else [c]) ++ [d.closeQuote]

/-- A name in the quotes of the dialect. -/
def quote (d : Dialect) (name : String) : String :=
  String.ofList (d.quoteChars name.toList)

/-! ## Markers -/

/-- The numbered marker of a bound value; dialects without one write `?`. -/
def numberedMarker (d : Dialect) (index : Nat) : String :=
  match d with
  | postgres => s!"${index}"
  | sqlite => s!"?{index}"
  | sqlserver => s!"@p{index}"
  | mysql | h2 => "?"

/-- The marker of a bound value. -/
def marker (d : Dialect) (style : MarkerStyle) (index : Nat) : String :=
  match style with
  | .positional => "?"
  | .numbered => d.numberedMarker index

/-- How the dialect spells names and markers. -/
def spelling (d : Dialect) (style : MarkerStyle) : Spelling := ⟨d.quote, d.marker style⟩

/-! ## Patterns and paging -/

/-- The escape character that has to be declared after a pattern; elsewhere the
backslash is the standard. -/
def patternEscape : Dialect → Option String
  | sqlite | sqlserver => some "\\"
  | _ => none

/-- The numeral of a count of rows. -/
def rows (n : UInt64) : Piece := .numeral (toString n.toNat)

/-- The words that cut the result to a page. -/
def paging (d : Dialect) (limit : UInt64) (offset : Option UInt64) : List Piece :=
  match d, offset with
  | sqlserver, offset =>
    [.fixed "OFFSET ", rows (offset.getD 0), .fixed " ROWS FETCH NEXT ", rows limit,
      .fixed " ROWS ONLY"]
  | mysql, some offset => [.fixed "LIMIT ", rows offset, .fixed ", ", rows limit]
  | _, some offset => [.fixed "LIMIT ", rows limit, .fixed " OFFSET ", rows offset]
  | _, none => [.fixed "LIMIT ", rows limit]

/-- Paging is allowed only after an ordering. -/
def pagesNeedOrder (d : Dialect) : Bool := d = sqlserver

end Dialect
end ResourceQuery.Sql
