/-
  PriceFeed — the parts of a fixed-point value, as numbers.

  * `toNat_integerPart`, `toNat_fractionPart`: the two parts of a value are the
    quotient and the remainder of its word by `2 ^ 30`, and no other numbers are
    (`toNat_parts_eq`), so adding an integer leaves the fraction (`toNat_parts_add`);
  * `toNat_join`: `join` multiplies and adds them again, each less what does
    not fit it.
-/
import Mathlib
import PriceFeed.Fixed.Basic

namespace PriceFeed.Fixed

theorem toNat_integerPart (x : Fixed) : x.integerPart.toNat = x.raw.toNat / 2 ^ 30 := by
  show (x.raw >>> 30).toNat = _
  rw [UInt64.toNat_shiftRight, Nat.shiftRight_eq_div_pow]
  rfl

theorem toNat_and_fracMask (d : UInt64) : (d &&& fracMask).toNat = d.toNat % 2 ^ 30 := by
  rw [UInt64.toNat_and, show fracMask.toNat = 2 ^ 30 - 1 from by decide,
    Nat.and_two_pow_sub_one_eq_mod]

theorem toNat_fractionPart (x : Fixed) : x.fractionPart.toNat = x.raw.toNat % 2 ^ 30 :=
  toNat_and_fracMask x.raw

theorem fractionPart_lt (x : Fixed) : x.fractionPart.toNat < 2 ^ 30 := by
  rw [toNat_fractionPart]
  exact Nat.mod_lt _ (by decide)

/-- A value is its integer part times `2 ^ 30` plus its fraction part. -/
theorem toNat_raw (x : Fixed) :
    x.raw.toNat = 2 ^ 30 * x.integerPart.toNat + x.fractionPart.toNat := by
  rw [toNat_integerPart, toNat_fractionPart, Nat.div_add_mod]

/-- There is no other way to write a value's word with a fraction below `2 ^ 30`. -/
theorem toNat_parts_eq {x : Fixed} {i d : Nat} (hx : x.raw.toNat = 2 ^ 30 * i + d)
    (hd : d < 2 ^ 30) : x.integerPart.toNat = i ∧ x.fractionPart.toNat = d := by
  rw [toNat_integerPart, toNat_fractionPart]
  omega

/-- An integer that is added to a value is added to its integer part. -/
theorem toNat_parts_add {x x' : Fixed} {n : Nat} (h : x'.raw.toNat = x.raw.toNat + n * 2 ^ 30) :
    x'.integerPart.toNat = x.integerPart.toNat + n ∧ x'.fractionPart = x.fractionPart := by
  have hparts : x'.raw.toNat = 2 ^ 30 * (x.integerPart.toNat + n) + x.fractionPart.toNat := by
    rw [h, toNat_raw x]
    ring
  obtain ⟨hi, hd⟩ := toNat_parts_eq hparts x.fractionPart_lt
  exact ⟨hi, UInt64.toNat_inj.1 hd⟩

theorem toNat_shiftLeft_fracBits (i : UInt64) :
    (i <<< fracBits).toNat = 2 ^ 30 * (i.toNat % 2 ^ 34) := by
  show (i <<< 30).toNat = _
  rw [UInt64.toNat_shiftLeft, Nat.shiftLeft_eq]
  show i.toNat * 2 ^ 30 % 2 ^ 64 = _
  omega

theorem toNat_join (i d : UInt64) :
    (join i d).raw.toNat = 2 ^ 30 * (i.toNat % 2 ^ 34) + d.toNat % 2 ^ 30 := by
  show ((i <<< fracBits) ||| (d &&& fracMask)).toNat = _
  rw [UInt64.toNat_or, toNat_shiftLeft_fracBits, toNat_and_fracMask]
  exact (Nat.two_pow_add_eq_or_of_lt (Nat.mod_lt _ (by decide)) _).symm

end PriceFeed.Fixed
