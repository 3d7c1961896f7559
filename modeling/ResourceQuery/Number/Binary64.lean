import ResourceQuery.Number.Numeral

set_option autoImplicit false

/-!
# Number: binary floating-point values of 64 bits

A value is a sign and a magnitude, the magnitude being the lower 63 bits of the
IEEE interchange format read as a number.  Magnitudes are ordered as the values
they stand for.  A decimal numeral is rounded to the nearest value, a half going
to the even neighbour, in exact arithmetic.
-/

namespace ResourceQuery.Number

/-- A binary floating-point value. -/
structure Binary64 where
  negative : Bool
  magnitude : Nat
  deriving DecidableEq, Repr, Inhabited

namespace Binary64

/-- The number of significands that share one binary exponent. -/
def binade : Nat := wordCount 52

/-- The magnitude of infinity. -/
def infinity : Nat := 2047 * binade

/-- The value is neither infinite nor a NaN. -/
def isFinite (x : Binary64) : Bool := x.magnitude < infinity

/-- The 64 bits of the interchange format. -/
def bits (x : Binary64) : Nat := (if x.negative then wordCount 63 else 0) + x.magnitude

/-! ## Parts -/

/-- The binary exponent of the unit in the last place. -/
def exponent (x : Binary64) : Int :=
  (x.magnitude / binade - 1 : Nat) - (1074 : Int)

/-- The significand, in units of the last place. -/
def significand (x : Binary64) : Nat :=
  if x.magnitude < binade then x.magnitude else binade + x.magnitude % binade

/-! ## Rounding a quotient -/

/-- The quotient rounded to the nearest number, a half going to the even one. -/
def roundEven (num den : Nat) : Nat :=
  let q := num / den
  let r := num % den
  if 2 * r < den then q
  else if den < 2 * r then q + 1
  else if q % 2 = 0 then q else q + 1

/-- `num / den` in units of `2 ^ e`, rounded. -/
def scaled (num den : Nat) (e : Int) : Nat :=
  if 0 ≤ e then roundEven num (den * wordCount e.toNat)
  else roundEven (num * wordCount (-e).toNat) den

/-- The exponent of the unit in the last place that represents `num / den`: the
quotient in that unit has 53 binary digits, or the unit is the smallest. -/
def unitExponent (num den : Nat) : Int :=
  let guess : Int := (Nat.log2 num : Int) - Nat.log2 den - 52
  let tooHigh : Bool :=
    if 0 ≤ guess then num < den * wordCount guess.toNat * binade
    else num * wordCount (-guess).toNat < den * binade
  max (if tooHigh then guess - 1 else guess) (-1074)

/-- The magnitude nearest to `num / den`. -/
def ofQuotient (num den : Nat) : Nat :=
  if num = 0 then 0
  else
    let e := unitExponent num den
    min ((e + 1074).toNat * binade + scaled num den e) infinity

/-- The number of decimal digits of `n`; one for zero. -/
def digitCount (n : Nat) : Nat := (Nat.toDigits 10 n).length

/-- The value nearest to a decimal numeral.  Numerals far outside the range are
settled by their size alone. -/
def ofDecimal (d : Decimal) : Binary64 :=
  let size := d.exponent + digitCount d.coefficient
  let magnitude :=
    if d.coefficient = 0 ∨ size < -400 then 0
    else if 400 < size then infinity
    else if 0 ≤ d.exponent then ofQuotient (d.coefficient * Nat.pow 10 d.exponent.toNat) 1
    else ofQuotient d.coefficient (Nat.pow 10 (-d.exponent).toNat)
  ⟨d.negative, magnitude⟩

/-- The finite value that a decimal numeral is read as. -/
def read? (s : String) : Option Binary64 :=
  ((decimal? s).map ofDecimal).filter isFinite

end Binary64
end ResourceQuery.Number
