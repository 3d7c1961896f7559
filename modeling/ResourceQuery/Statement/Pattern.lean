import ResourceQuery.Statement.Predicate

set_option autoImplicit false

/-!
# Statements: text patterns

A pattern of a query has `*` for any text.  Relational targets match with
`LIKE`, where `%` is any text, `_` any character, and a backslash takes either
literally.  The other targets test for the beginning, the end or a part.
-/

namespace ResourceQuery.Pattern

/-- A character in a `LIKE` pattern.  `starred` is set where `*` is any text. -/
def likeChar (starred : Bool) (c : Char) : List Char :=
  if c = '%' ∨ c = '_' ∨ c = '\\' then ['\\', c]
  else if c = '*' ∧ starred then ['%']
  else [c]

/-- The `LIKE` pattern of a text operator. -/
def likeChars (op : TextOperator) (cs : List Char) : List Char :=
  let escaped := cs.flatMap (likeChar (op = .like))
  match op with
  | .startsWith => escaped ++ ['%']
  | .endsWith => '%' :: escaped
  | .contains | .lacks => '%' :: escaped ++ ['%']
  | .like => escaped

/-- The `LIKE` pattern of a text operator. -/
def like (op : TextOperator) (s : String) : String := String.ofList (likeChars op s.toList)

/-- A text with `*` only at its ends. -/
structure Starred where
  leading : Bool
  trailing : Bool
  inner : String
  deriving DecidableEq, Repr, Inhabited

/-- The characters without the stars at either end. -/
def withoutStars (cs : List Char) : List Char :=
  ((cs.dropWhile (· == '*')).reverse.dropWhile (· == '*')).reverse

/-- A pattern whose stars are all at its ends, around a text that is not empty. -/
def starred? (s : String) : Option Starred :=
  let cs := s.toList
  let inner := withoutStars cs
  if inner = [] ∨ inner.contains '*' then none
  else some ⟨cs.head? = some '*', cs.getLast? = some '*', String.ofList inner⟩

end ResourceQuery.Pattern
