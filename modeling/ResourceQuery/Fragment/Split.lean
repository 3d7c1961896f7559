import ResourceQuery.Text.Blank

set_option autoImplicit false

/-!
# Fragments: dividing a query string

A query string joins fragments with `&`.
-/

namespace ResourceQuery.Fragment

/-- Divides at each `&` outside quotes and escapes.  `piece` is the stretch
under way, last character first; `quote` is the quote that is open. -/
def divideChars : Option Char → List Char → List Char → List (List Char)
  | _, piece, [] => [piece.reverse]
  | quote, piece, '\\' :: cs =>
    match cs with
    | [] => [('\\' :: piece).reverse]
    | c :: rest => divideChars quote (c :: '\\' :: piece) rest
  | some q, piece, c :: cs =>
    divideChars (if c = q then none else some q) (c :: piece) cs
  | none, piece, c :: cs =>
    if c = '&' then piece.reverse :: divideChars none [] cs
    else divideChars (if c = '\'' ∨ c = '"' then some c else none) (c :: piece) cs

/-- The fragments of a query string, without the blanks around them; empty ones
are left out. -/
def split (query : String) : List String :=
  ((divideChars none [] query.toList).map Text.trimChars).filterMap fun cs =>
    if cs = [] then none else some (String.ofList cs)

end ResourceQuery.Fragment
