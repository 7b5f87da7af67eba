/-
  PriceFeed — the digits that a number keeps.

  A number that does not fit a mantissa loses its last digits, no more of them than it takes, and
  is rounded.  `significant p` is `p` so rounded, with zeros in place of what is lost: what is
  kept of `p · 10^(-s)` stands for `significant p · 10^(-s)`, however many places there are.

  * `significant_mul_tenPow`: zeros at the end of a number make no difference to what it keeps, so
    all digits of a mantissa are kept, whatever zeros follow (`significant_integer`);
  * `significant_mono`: a larger number does not keep less, also where it loses more digits;
  * `significant_near`: what is kept is no further away than half a unit of its last digit.
-/
import Mathlib.Tactic
import PriceFeed.Decimal.Product

namespace PriceFeed.Decimal

/-- The digits that are dropped are zeros. -/
theorem exists_stripZeros (m s : Nat) :
    ∃ j, (stripZeros m s).2 + j = s ∧ (stripZeros m s).1 * tenPow j = m := by
  fun_induction stripZeros m s with
  | case1 m => exact ⟨0, rfl, Nat.mul_one m⟩
  | case2 m s h ih =>
    obtain ⟨j, hs, hm⟩ := ih
    refine ⟨j + 1, by omega, ?_⟩
    rw [tenPow_succ, Nat.mul_left_comm, hm]
    omega
  | case3 m s h => exact ⟨0, rfl, Nat.mul_one m⟩

/-! ## Lost digits -/

section
variable {p q s : Nat}

theorem excess_le_iff : excess p ≤ s ↔ p < mantissaBound * tenPow s := by
  rw [← Nat.div_lt_iff_lt_mul (tenPow_pos s)]
  constructor
  · intro h
    exact (Nat.div_le_div_left (tenPow_le_tenPow h) (tenPow_pos _)).trans_lt (div_excess_lt p)
  · intro h
    by_contra hlt
    exact absurd (le_div_of_lt_excess (Nat.not_le.1 hlt)) (Nat.not_le.2 h)

theorem excess_mono (h : p ≤ q) : excess p ≤ excess q :=
  excess_le_iff.2 (h.trans_lt (excess_le_iff.1 le_rfl))

theorem excess_ten_mul (h : mantissaBound ≤ 10 * p) : excess (10 * p) = excess p + 1 := by
  rw [excess_of_le h, Nat.mul_div_cancel_left p (by decide)]

/-- With one digit less lost, a number would reach the bound. -/
theorem mul_tenPow_excess_le (h : excess p ≠ 0) : mantissaBound * tenPow (excess p) ≤ 10 * p := by
  obtain ⟨t, ht⟩ := Nat.exists_eq_succ_of_ne_zero h
  have hle := le_div_of_lt_excess (p := p) (t := t) (by omega)
  rw [ht, tenPow_succ, Nat.mul_left_comm]
  exact Nat.mul_le_mul_left 10 ((Nat.le_div_iff_mul_le (tenPow_pos t)).1 hle)

/-! ## Kept digits -/

/-- The number `p` rounded to the digits that fit a mantissa, and zeros for those that do not. -/
def significant (p : Nat) : Nat :=
  halfEven p (tenPow (excess p)) * tenPow (excess p)

theorem significant_of_excess_eq_zero (h : excess p = 0) : significant p = p := by
  rw [significant, h, tenPow_zero, halfEven_one, Nat.mul_one]

theorem significant_of_lt (h : p < mantissaBound) : significant p = p :=
  significant_of_excess_eq_zero (excess_of_lt h)

theorem significant_ten_mul (p : Nat) : significant (10 * p) = 10 * significant p := by
  by_cases h : 10 * p < mantissaBound
  · rw [significant_of_lt h, significant_of_lt (by omega)]
  · -- one zero more is lost
    rw [significant, significant, excess_ten_mul (Nat.not_lt.1 h), tenPow_succ, Nat.mul_comm 10 p,
      Nat.mul_comm 10 (tenPow _), halfEven_mul_right _ _ (by decide)]
    ring

theorem significant_mul_tenPow (p j : Nat) :
    significant (p * tenPow j) = significant p * tenPow j := by
  induction j with
  | zero => rw [tenPow_zero, Nat.mul_one, Nat.mul_one]
  | succ j ih => rw [tenPow_succ, Nat.mul_left_comm, significant_ten_mul, ih, Nat.mul_left_comm]

theorem significant_integer {n : Nat} (h : n < mantissaBound) (j : Nat) :
    significant (n * tenPow j) = n * tenPow j := by
  rw [significant_mul_tenPow, significant_of_lt h]

theorem significant_near (p : Nat) : 2 * p ≤ 2 * significant p + tenPow (excess p) ∧
    2 * significant p ≤ 2 * p + tenPow (excess p) := by
  rw [significant, Nat.mul_comm (halfEven _ _)]
  exact ⟨halfEven_lower (tenPow_pos _), halfEven_upper _ _⟩

/-- What is kept of a number that loses digits has no fewer digits than the bound. -/
theorem mul_tenPow_excess_le_significant (h : excess p ≠ 0) :
    mantissaBound * tenPow (excess p) ≤ 10 * significant p := by
  have hround : halfEven mantissaBound 10 ≤ halfEven p (tenPow (excess p)) :=
    halfEven_le_halfEven (by decide) (tenPow_pos _) (by linarith [mul_tenPow_excess_le h])
  have hten : mantissaBound ≤ 10 * halfEven p (tenPow (excess p)) :=
    le_trans (by decide) (Nat.mul_le_mul_left 10 hround)
  rw [significant, ← Nat.mul_assoc]
  exact Nat.mul_le_mul_right _ hten

theorem significant_le (p : Nat) : significant p ≤ mantissaBound * tenPow (excess p) := by
  have hlt := div_excess_lt p
  have hle : halfEven p (tenPow (excess p)) ≤ mantissaBound := by
    rcases halfEven_eq_or p (tenPow (excess p)) with h | h <;> omega
  exact Nat.mul_le_mul_right _ hle

/-- **A larger number does not keep less.**  If it loses more digits, what it keeps is as much as
    the smaller one can keep. -/
theorem significant_mono (h : p ≤ q) : significant p ≤ significant q := by
  rcases Nat.eq_or_lt_of_le (excess_mono h) with heq | hlt
  · rw [significant, significant, heq]
    exact Nat.mul_le_mul_right _ (halfEven_le_of_le (tenPow_pos _) h)
  · have hp := significant_le p
    have hq := mul_tenPow_excess_le_significant (p := q) (by omega)
    have hten : 10 * tenPow (excess p) ≤ tenPow (excess q) := by
      rw [← tenPow_succ]
      exact tenPow_le_tenPow hlt
    unfold mantissaBound at *
    omega

theorem le_significant {n : Nat} (hn : n < mantissaBound) (h : n * tenPow s ≤ p) :
    n * tenPow s ≤ significant p := by
  rw [← significant_integer hn]
  exact significant_mono h

/-- An even integer is not passed where a number is rounded to it only after it has lost digits:
    what is half below the integer has one digit more than that, and keeps them all. -/
theorem le_halfEven_significant {n : Nat} (hn : n % 2 = 0) (hlt : 10 * n < mantissaBound)
    (h : n ≤ halfEven p (tenPow s)) : n ≤ halfEven (significant p) (tenPow s) := by
  rw [le_halfEven_iff (tenPow_pos s) hn] at h ⊢
  rcases Nat.eq_zero_or_pos n with rfl | hpos
  · omega
  obtain ⟨k, rfl⟩ := Nat.exists_eq_add_of_le' hpos
  have hhalf : (10 * k + 5) * tenPow s ≤ 10 * p := by linarith
  have hkept := le_significant (by omega) hhalf
  rw [significant_ten_mul] at hkept
  linarith

/-! ## A mantissa in bounds -/

theorem fit_of_lt (negative : Bool) (h : s < excess p) : fit negative p s = none :=
  if_pos h

/-- Where the rounding does not reach the bound, the mantissa is what is kept. -/
theorem fit_of_le (negative : Bool) (hs : s ≤ 28) (h : excess p ≤ s)
    (hm : halfEven p (tenPow (excess p)) < mantissaBound) : fit negative p s =
      some ⟨negative, halfEven p (tenPow (excess p)), s - excess p, hm, by omega⟩ := by
  unfold fit
  dsimp only
  rw [if_neg (Nat.not_lt.2 h), if_pos hm, ofParts?_eq negative hm (by omega)]

end

end PriceFeed.Decimal
