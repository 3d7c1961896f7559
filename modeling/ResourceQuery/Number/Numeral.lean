set_option autoImplicit false

/-!
# Number: numerals

Readers for whole and decimal numerals.  A reader takes the whole text or
refuses it; blanks around a numeral are the caller's concern.
-/

namespace ResourceQuery.Number

/-- The value of an ASCII digit. -/
def digit? (c : Char) : Option Nat :=
  if '0' ≤ c ∧ c ≤ '9' then some (c.toNat - '0'.toNat) else none

/-- The character is an ASCII digit. -/
def isDigit (c : Char) : Bool := (digit? c).isSome

/-- The number written by a run of digits, read from the left onto `acc`. -/
def ofDigits (acc : Nat) : List Char → Nat
  | [] => acc
  | c :: cs => ofDigits (acc * 10 + (digit? c).getD 0) cs

/-- A nonempty run of digits. -/
def digits? (cs : List Char) : Option Nat :=
  if cs ≠ [] ∧ cs.all isDigit then some (ofDigits 0 cs) else none

/-! ## Signs -/

/-- An optional sign; `true` stands for minus. -/
def splitSign : List Char → Bool × List Char
  | '-' :: cs => (true, cs)
  | '+' :: cs => (false, cs)
  | cs => (false, cs)

/-! ## Whole numbers of 64 bits -/

/-- The number of values of a word of `bits` bits. -/
def wordCount (bits : Nat) : Nat := Nat.pow 2 bits

/-- A word: an optional `+`, then digits whose value fits 64 bits. -/
def word? (s : String) : Option Nat :=
  let body := match s.toList with
    | '+' :: cs => cs
    | cs => cs
  (digits? body).filter (· < wordCount 64)

/-- A signed word: an optional sign, then digits whose value fits 64 bits. -/
def signedWord? (s : String) : Option Int :=
  let (negative, body) := splitSign s.toList
  (digits? body).bind fun n =>
    let value : Int := if negative then -(n : Int) else n
    if -(wordCount 63 : Int) ≤ value ∧ value < wordCount 63 then some value else none

/-! ## Decimal numerals -/

/-- A decimal numeral: `±coefficient · 10 ^ exponent`. -/
structure Decimal where
  negative : Bool
  coefficient : Nat
  exponent : Int
  deriving DecidableEq, Repr, Inhabited

/-- The exponent part: nothing, or `e`, an optional sign and digits. -/
def exponent? : List Char → Option Int
  | [] => some 0
  | c :: cs =>
    if c = 'e' ∨ c = 'E' then
      let (negative, body) := splitSign cs
      (digits? body).map fun n => if negative then -(n : Int) else n
    else none

/-- An unsigned decimal: digits with at most one point and at least one digit,
then an optional exponent part. -/
def unsignedDecimal? (negative : Bool) (cs : List Char) : Option Decimal :=
  let whole := cs.takeWhile isDigit
  let afterWhole := cs.dropWhile isDigit
  let (fraction, rest) := match afterWhole with
    | '.' :: r => (r.takeWhile isDigit, r.dropWhile isDigit)
    | r => ([], r)
  if whole = [] ∧ fraction = [] then none
  else (exponent? rest).map fun e =>
    ⟨negative, ofDigits 0 (whole ++ fraction), e - fraction.length⟩

/-- A decimal numeral: `[+-]? (digits [. digits*] | . digits) ([eE] [+-]?
digits)?`. -/
def decimal? (s : String) : Option Decimal :=
  let (negative, body) := splitSign s.toList
  unsignedDecimal? negative body

/-- The words that name a number outside the finite range, in lower case. -/
def boundlessWords : List (List Char) := ["inf".toList, "infinity".toList, "nan".toList]

/-- The text is an optionally signed name of a number outside the finite range. -/
def isBoundless (s : String) : Bool :=
  boundlessWords.contains ((splitSign s.toList).2.map Char.toLower)

/-- The text is read as a number, finite or not. -/
def isNumber (s : String) : Bool := (decimal? s).isSome || isBoundless s

end ResourceQuery.Number
