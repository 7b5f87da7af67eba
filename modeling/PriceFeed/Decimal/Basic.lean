/-
  PriceFeed — decimals of 96 bits.

  A `Decimal` is `± mantissa · 10^(-scale)` with a mantissa below `2 ^ 96` and
  at most 28 places.  Equal numbers may be written at different scales; `strip`
  takes the one with the fewest places.
-/

namespace PriceFeed

/-- The bound of mantissas: `2 ^ 96`. -/
def mantissaBound : Nat := 79228162514264337593543950336

/-- A number of at most 28 decimal places. -/
structure Decimal where
  negative : Bool
  mantissa : Nat
  scale : Nat
  mantissa_lt : mantissa < mantissaBound := by decide
  scale_le : scale ≤ 28 := by decide
  deriving DecidableEq

namespace Decimal

/-- The decimal with these parts, if they are within the limits. -/
def ofParts? (negative : Bool) (mantissa scale : Nat) : Option Decimal :=
  if h : mantissa < mantissaBound ∧ scale ≤ 28 then some ⟨negative, mantissa, scale, h.1, h.2⟩
  else none

theorem ofParts?_eq {mantissa scale : Nat} (negative : Bool) (hm : mantissa < mantissaBound)
    (hs : scale ≤ 28) :
    ofParts? negative mantissa scale = some ⟨negative, mantissa, scale, hm, hs⟩ :=
  dif_pos ⟨hm, hs⟩

/-- The number `mantissa · 10^(-scale)`. -/
def positive (mantissa scale : Nat) (mantissa_lt : mantissa < mantissaBound := by decide)
    (scale_le : scale ≤ 28 := by decide) : Decimal :=
  ⟨false, mantissa, scale, mantissa_lt, scale_le⟩

def zero : Decimal :=
  positive 0 0

def toFloat (d : Decimal) : Float :=
  let size := Float.ofScientific d.mantissa true d.scale
  if d.negative then -size else size

/-- The parts of `m · 10^(-s)` with the fewest places: while there is a place and
    the last digit is a zero, that digit is dropped. -/
def stripZeros (m : Nat) : Nat → Nat × Nat
  | 0 => (m, 0)
  | s + 1 => if m % 10 = 0 then stripZeros (m / 10) s else (m, s + 1)

theorem stripZeros_mantissa_le (m s : Nat) : (stripZeros m s).1 ≤ m := by
  induction s generalizing m with
  | zero => exact Nat.le_refl m
  | succ s ih =>
    unfold stripZeros
    split
    · exact Nat.le_trans (ih (m / 10)) (Nat.div_le_self m 10)
    · exact Nat.le_refl m

theorem stripZeros_scale_le (m s : Nat) : (stripZeros m s).2 ≤ s := by
  induction s generalizing m with
  | zero => exact Nat.le_refl 0
  | succ s ih =>
    unfold stripZeros
    split
    · exact Nat.le_succ_of_le (ih (m / 10))
    · exact Nat.le_refl (s + 1)

/-- The same number with the fewest places. -/
def strip (d : Decimal) : Decimal where
  negative := d.negative
  mantissa := (stripZeros d.mantissa d.scale).1
  scale := (stripZeros d.mantissa d.scale).2
  mantissa_lt := Nat.lt_of_le_of_lt (stripZeros_mantissa_le _ _) d.mantissa_lt
  scale_le := Nat.le_trans (stripZeros_scale_le _ _) d.scale_le

end Decimal

end PriceFeed
