import ResourceQuery.Number.Binary64

set_option autoImplicit false

/-!
# Number: the fewest digits that read back

Among the decimals that are rounded to a given binary value, the ones with the
fewest digits are considered, and of those the nearest to the value is taken.
Which way an exact tie goes is the caller's choice.
-/

namespace ResourceQuery.Number

/-- Which of two equally near decimals is taken. -/
inductive Tie where
  | away
  | even
  deriving DecidableEq, Repr, Inhabited

/-- `digits · 10 ^ exponent`, a positive decimal. -/
structure Digits where
  digits : Nat
  exponent : Int
  deriving DecidableEq, Repr, Inhabited

namespace Digits

/-- A positive rational number. -/
structure Ratio where
  num : Nat
  den : Nat

/-- `m · b ^ e` as a ratio. -/
def Ratio.power (m b : Nat) (e : Int) : Ratio :=
  if 0 ≤ e then ⟨m * Nat.pow b e.toNat, 1⟩ else ⟨m, Nat.pow b (-e).toNat⟩

/-- The order of ratios. -/
def Ratio.lt (a b : Ratio) : Bool := a.num * b.den < b.num * a.den

/-- The decimal is rounded to the magnitude `x`: it lies between the midpoints
to the two neighbours, ends included when the significand is even. -/
def readsBack (x : Binary64) (d : Digits) : Bool :=
  let m := x.significand
  let e := x.exponent
  let high := Ratio.power (2 * m + 1) 2 (e - 1)
  let low :=
    if m = Binary64.binade ∧ -1074 < e then Ratio.power (4 * m - 1) 2 (e - 2)
    else Ratio.power (2 * m - 1) 2 (e - 1)
  let value := Ratio.power d.digits 10 d.exponent
  if m % 2 = 0 then !value.lt low && !high.lt value
  else low.lt value && value.lt high

/-- The nearest decimal to `x` on the grid of `10 ^ e` that reads back as `x`. -/
def onGrid (tie : Tie) (x : Binary64) (e : Int) : Option Digits :=
  let value := Ratio.power x.significand 2 x.exponent
  let unit := Ratio.power 1 10 e
  let num := value.num * unit.den
  let den := value.den * unit.num
  let below := num / den
  let rest := num % den
  let upward :=
    den < 2 * rest ∨ (2 * rest = den ∧ (tie = .away ∨ below % 2 = 1))
  let first : Digits := ⟨if upward then below + 1 else below, e⟩
  let second : Digits := ⟨if upward then below else below + 1, e⟩
  if first.digits ≠ 0 ∧ readsBack x first then some first
  else if second.digits ≠ 0 ∧ readsBack x second then some second
  else none

/-- The first grid with a decimal that reads back, from the coarsest on. -/
def search (tie : Tie) (x : Binary64) : Nat → Int → Digits
  | 0, e => ⟨0, e⟩
  | fuel + 1, e =>
    match onGrid tie x e with
    | some d => d
    | none => search tie x fuel (e - 1)

/-- The decimal exponent just above a positive finite value: the value is below
`10 ^ ceiling x`. -/
def ceiling (x : Binary64) : Int :=
  let value := Ratio.power x.significand 2 x.exponent
  (Binary64.digitCount value.num : Int) - Binary64.digitCount value.den + 1

/-- The shortest decimal of a positive finite value. -/
def shortest (tie : Tie) (x : Binary64) : Digits :=
  search tie x 24 (ceiling x)

end Digits
end ResourceQuery.Number
