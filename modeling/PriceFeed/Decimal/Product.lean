/-
  PriceFeed — the product of a decimal and a natural number.

  A product whose digits do not fit a mantissa loses as many of its last places as
  it takes, and is rounded to the nearest of the shorter numbers, a tie to the
  even one.  It overflows if it has not that many places.

  * `div_excess_lt` and `le_div_of_lt_excess`: `excess p` is the least number of
    digits whose loss brings `p` below `mantissaBound`.
-/
import PriceFeed.Decimal.Basic
import PriceFeed.Decimal.Rounding

namespace PriceFeed.Decimal

/-- The least number of digits whose loss brings `p` below the bound of mantissas. -/
def excess (p : Nat) : Nat :=
  if h : p < mantissaBound then 0
  else
    have : 0 < p := Nat.lt_of_lt_of_le (by decide) (Nat.not_lt.1 h)
    excess (p / 10) + 1
termination_by p

theorem excess_of_lt {p : Nat} (h : p < mantissaBound) : excess p = 0 := by
  rw [excess, dif_pos h]

theorem excess_of_le {p : Nat} (h : mantissaBound ≤ p) : excess p = excess (p / 10) + 1 := by
  rw [excess, dif_neg (Nat.not_lt.2 h)]

theorem div_excess_lt (p : Nat) : p / tenPow (excess p) < mantissaBound := by
  induction p using Nat.strongRecOn with
  | _ p ih =>
    by_cases h : p < mantissaBound
    · rw [excess_of_lt h, tenPow_zero, Nat.div_one]; exact h
    · have hp : 0 < p := Nat.lt_of_lt_of_le (by decide) (Nat.not_lt.1 h)
      rw [excess_of_le (Nat.not_lt.1 h), tenPow_succ, ← Nat.div_div_eq_div_mul]
      exact ih (p / 10) (by omega)

theorem le_div_of_lt_excess {p t : Nat} (ht : t < excess p) : mantissaBound ≤ p / tenPow t := by
  induction p using Nat.strongRecOn generalizing t with
  | _ p ih =>
    by_cases h : p < mantissaBound
    · rw [excess_of_lt h] at ht; exact absurd ht (Nat.not_lt_zero t)
    · have hp : 0 < p := Nat.lt_of_lt_of_le (by decide) (Nat.not_lt.1 h)
      rw [excess_of_le (Nat.not_lt.1 h)] at ht
      cases t with
      | zero => rw [tenPow_zero, Nat.div_one]; exact Nat.not_lt.1 h
      | succ t =>
        rw [tenPow_succ, ← Nat.div_div_eq_div_mul]
        exact ih (p / 10) (by omega) (Nat.lt_of_succ_lt_succ ht)

/-- The number `p · 10^(-scale)` with a mantissa in bounds.  Rounding can only reach
    the bound itself; then one more place is dropped, a tie going up. -/
def fit (negative : Bool) (p scale : Nat) : Option Decimal :=
  let t := excess p
  if scale < t then none
  else
    let m := halfEven p (tenPow t)
    if m < mantissaBound then ofParts? negative m (scale - t)
    else if scale = t then none
    else ofParts? negative (halfUp m 10) (scale - t - 1)

def mul (d : Decimal) (k : Nat) : Option Decimal :=
  if d.mantissa = 0 ∨ k = 0 then some zero else fit d.negative (d.mantissa * k) d.scale

end PriceFeed.Decimal
