/-
  PriceFeed — fixed-point values as decimals (`from_decimal`, `from_decimal_rounded`,
  `to_decimal` and `from_str`).

  * `scaled` is `scale_decimal`: a decimal is multiplied by `2 ^ 30`, and the product may
    already have lost places (`Decimal.mul`);
  * `ofDecimal` is `from_decimal` and accepts a product without a fraction;
    `ofDecimalRounded` is `from_decimal_rounded` and takes the nearest integer, a tie to
    the even one;
  * `toDecimal` is `to_decimal`: it divides by `2 ^ 30` to as many places as it takes to be
    exact, or as 96 bits and 28 places allow, the last digit rounded to nearest, a tie to
    the even one, and drops trailing zeros;
  * `ofText` is `from_str`, the rounded value of a decimal's text.
-/
import PriceFeed.Decimal.Printer
import PriceFeed.Decimal.Reader
import PriceFeed.Fixed.Basic
import PriceFeed.Text.Blank

namespace PriceFeed.Fixed

/-! ## From decimals -/

/-- The decimal times `2 ^ 30`; a negative one is refused. -/
def scaled (d : Decimal) : Except Fault Decimal :=
  if d.negative = true ∧ d.mantissa ≠ 0 then .error .invalid
  else
    match d.mul denominator with
    | some p => .ok p
    | none => .error .overflow

/-- The value with this word, if it is one. -/
def ofNat (n : Nat) : Except Fault Fixed :=
  if n < UInt64.size then .ok ⟨UInt64.ofNat n⟩ else .error .overflow

def ofDecimal (d : Decimal) : Except Fault Fixed := do
  let p ← scaled d
  if p.mantissa % tenPow p.scale = 0 then ofNat (p.mantissa / tenPow p.scale)
  else .error .inexact

def ofDecimalRounded (d : Decimal) : Except Fault Fixed := do
  let p ← scaled d
  ofNat (halfEven p.mantissa (tenPow p.scale))

/-! ## To decimals -/

/-- The number of places of `raw / 2 ^ 30`, given that it has at least `s` and at
    most `left` more: another is taken while the quotient is not exact and its
    digits fit a mantissa. -/
def places (raw : Nat) : (left s : Nat) → Nat
  | 0, s => s
  | left + 1, s =>
    if raw * tenPow s % denominator ≠ 0 ∧ raw * tenPow (s + 1) / denominator < mantissaBound then
      places raw left (s + 1)
    else s

theorem places_le (raw left s : Nat) : places raw left s ≤ s + left := by
  induction left generalizing s with
  | zero => exact Nat.le_refl s
  | succ left ih =>
    unfold places
    split
    · have := ih (s + 1); omega
    · omega

/-- The quotient to that many places, rounded down, fits a mantissa. -/
theorem quotient_places_lt {raw left s : Nat} (h : raw * tenPow s / denominator < mantissaBound) :
    raw * tenPow (places raw left s) / denominator < mantissaBound := by
  induction left generalizing s with
  | zero => exact h
  | succ left ih =>
    unfold places
    split
    · next hs => exact ih hs.2
    · exact h

/-- At no number of places is there a word whose quotient would be rounded up to
    the bound of mantissas: the greatest product that stays below it is more than
    half a unit away. -/
theorem product_add_half_lt {raw s : Nat} (hraw : raw < UInt64.size) (hs : s ≤ 28)
    (h : raw * tenPow s / denominator < mantissaBound) :
    2 * (raw * tenPow s) + denominator < 2 * (denominator * mantissaBound) := by
  have key : ∀ s < 29, 2 * (min ((denominator * mantissaBound - 1) / tenPow s) (UInt64.size - 1) *
      tenPow s) + denominator < 2 * (denominator * mantissaBound) := by decide
  have hmul : raw * tenPow s < denominator * mantissaBound := by
    rw [Nat.mul_comm denominator]
    exact (Nat.div_lt_iff_lt_mul denominator_pos).1 h
  have hle : raw * tenPow s ≤
      min ((denominator * mantissaBound - 1) / tenPow s) (UInt64.size - 1) * tenPow s :=
    Nat.mul_le_mul_right _ (Nat.le_min.2
      ⟨(Nat.le_div_iff_mul_le (tenPow_pos s)).2 (Nat.le_sub_one_of_lt hmul),
        Nat.le_sub_one_of_lt hraw⟩)
  have := key s (by omega)
  omega

theorem rounded_places_lt (x : Fixed) :
    halfEven (x.raw.toNat * tenPow (places x.raw.toNat 28 0)) denominator < mantissaBound := by
  have hs : places x.raw.toNat 28 0 ≤ 28 := by
    have := places_le x.raw.toNat 28 0; omega
  have hstart : x.raw.toNat * tenPow 0 / denominator < mantissaBound := by
    rw [tenPow_zero, Nat.mul_one]
    exact Nat.lt_of_le_of_lt (Nat.div_le_self _ _)
      (Nat.lt_trans x.raw.toNat_lt_size (by decide))
  have hlt := product_add_half_lt x.raw.toNat_lt_size hs (quotient_places_lt hstart)
  have hup := halfEven_upper (x.raw.toNat * tenPow (places x.raw.toNat 28 0)) denominator
  exact Nat.lt_of_mul_lt_mul_left (Nat.lt_of_mul_lt_mul_left (Nat.lt_of_le_of_lt hup hlt))

/-- The decimal nearest to a value, with no trailing zeros. -/
def toDecimal (x : Fixed) : Decimal :=
  let s := places x.raw.toNat 28 0
  Decimal.strip
    { negative := false
      mantissa := halfEven (x.raw.toNat * tenPow s) denominator
      scale := s
      mantissa_lt := rounded_places_lt x
      scale_le := by have := places_le x.raw.toNat 28 0; omega }

/-! ## Text -/

/-- A value as it is shown to a reader. -/
def text (x : Fixed) : String :=
  x.toDecimal.text

/-- A value with its word beside it. -/
def debugText (x : Fixed) : String :=
  s!"Fxp({x.text}, raw={String.ofList (Digits.hex x.raw.toNat)})"

/-- The value nearest to the decimal of a text, blanks around it aside. -/
def ofText (t : String) : Except Fault Fixed :=
  match Decimal.read? (trimBlanks t.toList) with
  | some d => ofDecimalRounded d
  | none => .error .invalid

end PriceFeed.Fixed
