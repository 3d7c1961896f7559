import ResourceQuery.Statement.Pattern

set_option autoImplicit false

/-!
# Statements: functions for texts

The targets without `LIKE` test texts with functions of a column and a bound
text: whether the column starts with the text, ends with it, or contains it.
None of them has all of these.

A pattern with `*` at its ends only asks for one of the functions, by the ends
at which its stars stand, and a pattern without a star asks for an equality.
Such a pattern is taken if the target has the function.  Any other pattern is
refused, and so are the operators of functions that the target does not have.
What is special to a target is therefore its list of functions, how they are
called, and what it offers instead of the others.
-/

namespace ResourceQuery

/-- The function that a text operator asks for.  A pattern is matched as a whole. -/
def TextOperator.function : TextOperator → TextTest
  | .startsWith => .startsWith
  | .endsWith => .endsWith
  | .contains | .lacks => .contains
  | .like => .pattern

namespace Pattern.Starred

variable {C : Type}

/-- The function that stars at these ends ask for; without stars the whole text is meant. -/
def function? (s : Starred) : Option TextTest :=
  match s.leading, s.trailing with
  | false, false => none
  | false, true => some .startsWith
  | true, false => some .endsWith
  | true, true => some .contains

/-- The test of a column against a text with stars at these ends. -/
def test (s : Starred) (column : C) (marker : Nat) : Predicate C :=
  match s.function? with
  | none => .comparison .eq column marker
  | some function => .text function false column marker

end Pattern.Starred

/-- What a target without `LIKE` has for tests of texts. -/
structure TextFunctions where
  /-- The name of the target in messages. -/
  backend : String
  /-- The functions that the target has. -/
  available : List TextTest
  /-- The operators of these functions, which messages offer in place of the others. -/
  alternatives : String
  /-- The text that a call of a function starts with. -/
  opening : TextTest → String

namespace TextFunctions

variable {σ C : Type} (f : TextFunctions)

/-- What is offered instead of an operator that the target does not have.  There
is always an operator `like`; it depends on the pattern whether it is
refused. -/
def refused (op : TextOperator) : Option String :=
  if op = .like ∨ op.function ∈ f.available then none else some f.alternatives

/-- The target has the function that the stars ask for, if they ask for one. -/
def takes (s : Pattern.Starred) : Bool := s.function?.all f.available.contains

/-- A test against a pattern. -/
def like (column : C) (path pattern : String) : Build σ (Predicate C) :=
  match (Pattern.starred? pattern).filter f.takes with
  | none => throw (.unsupported f.backend "like" f.alternatives)
  | some s => do
    let marker ← Build.bind path (.text s.inner)
    return s.test column marker

/-- A test of a column, typed as the path, against a text. -/
def test (op : TextOperator) (column : C) (path text : String) : Build σ (Predicate C) :=
  if op = .like then f.like column path text
  else do
    let marker ← Build.bind path (.text text)
    return .text op.function (op = .lacks) column marker

/-- The pieces of a test. -/
def pieces (function : TextTest) (negated : Bool) (column : List Piece) (marker : Nat) :
    List Piece :=
  .fixed (if negated then "NOT " else "") :: .fixed (f.opening function) ::
    column ++ [.fixed ", ", .marker marker, .fixed ")"]

end TextFunctions
end ResourceQuery
