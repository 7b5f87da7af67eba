/-
  PriceFeed — doubles in the report.

  A finite double that is not negative is a quotient of natural numbers
  (`quotient`).  From it come two texts, each the nearest to the exact value, a
  tie going to the even digit: `fixedPlaces`, with a given number of places, and
  `scientific`, one digit before the point, two after it, and a power of ten.
-/
import PriceFeed.Decimal.Printer
import PriceFeed.Decimal.Rounding

namespace PriceFeed.Report

/-- A double as a numerator and a denominator. -/
def quotient (x : Float) : Nat × Nat :=
  let bits := x.toBits.toNat
  let field := (bits >>> 52) % 0x800
  let fraction := bits % 0x10000000000000
  let significand := if field = 0 then fraction else 0x10000000000000 + fraction
  let exponent := max field 1
  (significand <<< (exponent - 1075), 1 <<< (1075 - exponent))

/-- A double with `places` places. -/
def fixedPlaces (places : Nat) (x : Float) : List Char :=
  let (a, b) := quotient x
  Decimal.digits (halfEven (a * tenPow places) b) places

/-- The least `j` with `1 ≤ a · 10^j / b`, for `0 < a`. -/
def lift (a b : Nat) : Nat :=
  if a = 0 ∨ b ≤ a then 0 else lift (10 * a) b + 1
termination_by b - a
decreasing_by omega

/-- The power of ten at or below `a / b`; zero for zero. -/
def magnitude (a b : Nat) : Int :=
  if b ≤ a then ((Digits.ofNat (a / b)).length : Int) - 1 else -(lift a b : Int)

/-- Three digits of `a / b` and the power of ten of the first. -/
def threeDigits (a b : Nat) : Nat × Int :=
  let k := magnitude a b
  let n := halfEven (a * tenPow (2 - k).toNat) (b * tenPow (k - 2).toNat)
  if n < 1000 then (n, k) else (100, k + 1)

/-- A double as a digit, a point, two digits, and a power of ten. -/
def scientific (x : Float) : List Char :=
  let (a, b) := quotient x
  let (n, k) := threeDigits a b
  Decimal.digits n 2 ++ 'e' :: Digits.ofInt k

end PriceFeed.Report
