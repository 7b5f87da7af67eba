/-
  PriceFeed — the numbers that decimals and fixed-point values stand for.
-/
import Mathlib
import PriceFeed.Decimal.Basic
import PriceFeed.Fixed.Basic

namespace PriceFeed

def Decimal.toRat (d : Decimal) : ℚ :=
  (if d.negative then -1 else 1) * (d.mantissa : ℚ) / 10 ^ d.scale

def Fixed.toRat (x : Fixed) : ℚ :=
  (x.raw.toNat : ℚ) / 2 ^ 30

theorem Fixed.toRat_nonneg (x : Fixed) : 0 ≤ x.toRat :=
  div_nonneg (Nat.cast_nonneg _) (by norm_num)

theorem Fixed.toRat_mul (x : Fixed) : x.toRat * 2 ^ 30 = x.raw.toNat :=
  div_mul_cancel₀ _ (by norm_num)

end PriceFeed
