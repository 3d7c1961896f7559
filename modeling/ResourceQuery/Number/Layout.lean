import ResourceQuery.Number.Shortest

set_option autoImplicit false

/-!
# Number: writing binary values in decimal

The digits are the shortest that read back.  A layout says where the point goes
and when an exponent is written instead.
-/

namespace ResourceQuery.Number

/-- The decisions of a decimal format.  `point` is the number of digits before
the decimal point when the value is written as `0.d₁d₂… · 10 ^ point`. -/
structure Layout where
  /-- Which way exact ties go. -/
  tie : Tie
  /-- Positional notation is used for this position of the point. -/
  positional : Int → Bool
  /-- Written after the digits of a whole number in positional notation. -/
  whole : String

namespace Layout

/-- Positional everywhere; whole numbers have no point. -/
def plain : Layout := ⟨.away, fun _ => true, ""⟩

/-- The layout of data exchange: positional from `0.00001` up to sixteen whole
digits, with `.0` on whole numbers, and a signed exponent elsewhere. -/
def exchange : Layout := ⟨.even, fun point => -5 < point && point ≤ 16, ".0"⟩

/-- Digits in positional notation. -/
def writePositional (layout : Layout) (digits : List Char) (point : Int) : String :=
  if point ≤ 0 then
    "0." ++ String.ofList (List.replicate (-point).toNat '0' ++ digits)
  else if digits.length ≤ point.toNat then
    String.ofList (digits ++ List.replicate (point.toNat - digits.length) '0') ++ layout.whole
  else
    String.ofList (digits.take point.toNat) ++ "." ++ String.ofList (digits.drop point.toNat)

/-- Digits with an exponent: one digit before the point, the rest after it. -/
def writeExponent (digits : List Char) (point : Int) : String :=
  let fraction := digits.drop 1
  let mantissa :=
    if fraction = [] then digits.take 1 else digits.take 1 ++ '.' :: fraction
  let e := point - 1
  let sign := if e < 0 then "-" else "+"
  String.ofList mantissa ++ "e" ++ sign ++ toString e.natAbs

/-- A finite value in decimal. -/
def write (layout : Layout) (x : Binary64) : String :=
  let sign := if x.negative then "-" else ""
  if x.magnitude = 0 then sign ++ "0" ++ layout.whole
  else
    let d := Digits.shortest layout.tie x
    let digits := Nat.toDigits 10 d.digits
    let point := d.exponent + digits.length
    sign ++ (if layout.positional point then layout.writePositional digits point
      else writeExponent digits point)

end Layout
end ResourceQuery.Number
