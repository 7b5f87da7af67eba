/-
  PriceFeed — the nearest integer, and rounding twice.

  `NearestEven` says of a rational number which integer is nearest to it, without reference to
  quotients and remainders; `halfEven` finds it (`nearestEven_div_iff`).

  A number that loses digits and is then rounded to an integer is rounded twice, and can miss the
  nearest one: so near to a tie that the first rounding makes it one, it goes to the even integer
  even if that is on the other side (`halfEven_halfEven_eq_iff`).
-/
import Mathlib
import PriceFeed.Decimal.Rounding

namespace PriceFeed

/-! ## Nearest -/

/-- No integer is nearer to `x` than `n`, and if another one is as near, `n` is even. -/
structure NearestEven (x : ℚ) (n : ℕ) : Prop where
  le : ∀ m : ℤ, |x - n| ≤ |x - m|
  even : ∀ m : ℤ, m ≠ n → |x - m| = |x - n| → Even n

theorem nearestEven_iff {x : ℚ} {n : ℕ} :
    NearestEven x n ↔ |x - n| ≤ 1 / 2 ∧ (|x - n| = 1 / 2 → Even n) := by
  constructor
  · intro h
    refine ⟨?_, fun htie => ?_⟩
    · -- neither neighbour is nearer
      have hup := sq_le_sq.2 (h.le (n + 1))
      have hdown := sq_le_sq.2 (h.le (n - 1))
      push_cast at hup hdown
      exact abs_le.2 ⟨by linarith, by linarith⟩
    · rcases abs_cases (x - n) with hx | hx
      · refine h.even (n + 1) (by omega) ?_
        push_cast
        rw [htie, abs_of_neg] <;> linarith
      · refine h.even (n - 1) (by omega) ?_
        push_cast
        rw [htie, abs_of_pos] <;> linarith
  · rintro ⟨hle, heven⟩
    have hfar : ∀ m : ℤ, m ≠ n → 1 ≤ |x - m| + |x - n| := by
      intro m hm
      have hint : (1 : ℚ) ≤ |(m : ℚ) - n| := by exact_mod_cast Int.one_le_abs (sub_ne_zero.2 hm)
      calc (1 : ℚ) ≤ |(m : ℚ) - n| := hint
        _ = |(x - n) - (x - m)| := by rw [sub_sub_sub_cancel_left]
        _ ≤ |x - n| + |x - m| := abs_sub _ _
        _ = |x - m| + |x - n| := add_comm _ _
    refine ⟨fun m => ?_, fun m hm h => heven ?_⟩
    · by_cases hm : m = n
      · rw [hm]; exact le_rfl
      · linarith [hfar m hm]
    · linarith [hfar m hm]

section
variable {a b n u : ℕ}

theorem abs_div_sub (hb : 0 < b) :
    |(a / b - n : ℚ)| = |(2 * a - 2 * (n * b) : ℚ)| / (2 * b) := by
  have hb' : (0 : ℚ) < 2 * b := by positivity
  rw [show (a / b - n : ℚ) = (2 * a - 2 * (n * b)) / (2 * b) by field_simp, abs_div, abs_of_pos hb']

/-- Distances from a quotient in halves of its denominator. -/
theorem abs_div_sub_le_iff (hb : 0 < b) :
    |(a / b - n : ℚ)| ≤ u / (2 * b) ↔ 2 * a ≤ 2 * (n * b) + u ∧ 2 * (n * b) ≤ 2 * a + u := by
  rw [abs_div_sub hb, div_le_div_iff_of_pos_right (by positivity), abs_le, neg_le_sub_iff_le_add,
    sub_le_iff_le_add', and_comm]
  norm_cast

theorem abs_div_sub_add_lt_iff (hb : 0 < b) :
    |(a / b - n : ℚ)| + u / (2 * b) < 1 / 2 ↔
      2 * a + u < 2 * (n * b) + b ∧ 2 * (n * b) + u < 2 * a + b := by
  have hhalf : (1 / 2 : ℚ) = b / (2 * b) := by field_simp
  rw [abs_div_sub hb, hhalf, ← add_div, div_lt_div_iff_of_pos_right (by positivity),
    ← lt_sub_iff_add_lt, abs_lt]
  qify
  constructor <;> rintro ⟨h₁, h₂⟩ <;> constructor <;> linarith

/-- **The rounded quotient is the nearest integer to it.** -/
theorem nearestEven_div_iff (hb : 0 < b) : NearestEven (a / b) n ↔ halfEven a b = n := by
  have hhalf : (1 / 2 : ℚ) = b / (2 * b) := by field_simp
  have hle := abs_div_sub_le_iff (a := a) (n := n) (u := b) hb
  have hlt := abs_div_sub_add_lt_iff (a := a) (n := n) (u := 0) hb
  rw [← hhalf] at hle
  rw [Nat.cast_zero, zero_div, add_zero, Nat.add_zero, Nat.add_zero] at hlt
  have htie : |(a / b - n : ℚ)| = 1 / 2 ↔
      |(a / b - n : ℚ)| ≤ 1 / 2 ∧ ¬ |(a / b - n : ℚ)| < 1 / 2 := by
    rw [not_lt, le_antisymm_iff]
  rw [nearestEven_iff, halfEven_eq_iff hb, Nat.mul_comm b, htie, hlt, hle, Nat.even_iff]
  omega

end

/-! ## Rounding twice -/

/-! What the first rounding, of `p / b` to `q`, says of a bound `m`.  Each statement is used from
below and, with the signs of `p` and `q` turned, from above. -/

section
variable {p q b m : ℤ} (hb : 0 < b)
include hb

theorem two_mul_le_of_rounded (hq : b * (2 * q - 1) ≤ 2 * p) (hm : m % 2 = 0)
    (h : 2 * p ≤ b * m) : 2 * q ≤ m := by
  have := le_of_mul_le_mul_left (hq.trans h) hb
  omega

theorem two_mul_lt_of_rounded (hq : b * (2 * q - 1) ≤ 2 * p) (h : 2 * p + b < b * m) :
    2 * q < m := by
  refine lt_of_mul_lt_mul_left ?_ hb.le
  linarith

/-- As a tie has gone to the even side, an odd `q` was less than a half from the number. -/
theorem lt_mul_of_rounded (hq : 2 * p ≤ b * (2 * q + 1))
    (htie : 2 * p = b * (2 * q + 1) → q % 2 = 0) (hm : 2 * q + 2 ≤ m)
    (hodd : 2 * q + 2 = m → q % 2 ≠ 0) : 2 * p + b < b * m := by
  rcases hm.lt_or_eq with hlt | rfl
  · have := mul_lt_mul_of_pos_left hlt hb
    linarith
  · have := lt_of_le_of_ne hq fun h => hodd rfl (htie h)
    linarith

end

section
variable {p b c n : ℕ} (hb : 0 < b)
include hb

/-- An even multiple is what a quotient rounds to if it is no further away than a half. -/
theorem halfEven_eq_mul_iff (hc : c % 2 = 0) :
    halfEven p b = n * c ↔ 2 * p ≤ 2 * (n * (b * c)) + b ∧ 2 * (n * (b * c)) ≤ 2 * p + b := by
  have heven : n * c % 2 = 0 := by rw [Nat.mul_mod, hc, Nat.mul_zero, Nat.zero_mod]
  rw [halfEven_eq_iff hb, Nat.mul_left_comm b]
  exact ⟨fun h => ⟨h.1, h.2.1⟩, fun h => ⟨h.1, h.2, fun _ => heven⟩⟩

variable (hc : 0 < c)
include hc

/-- **When rounding twice is rounding once.**  A quotient rounded to the multiples of `1 / c`, and
    that to an integer, gives the nearest integer `n` to the quotient exactly if `n` is even, or
    the first rounding cannot reach a tie: that is half of `1 / c` away at most. -/
theorem halfEven_halfEven_eq_iff (hc₄ : c % 4 = 0) (hn : halfEven p (b * c) = n) :
    halfEven (halfEven p b) c = n ↔
      n % 2 = 0 ∨
        2 * p + b < 2 * (n * (b * c)) + b * c ∧ 2 * (n * (b * c)) + b < 2 * p + b * c := by
  obtain ⟨hlow, hhigh, -⟩ := (halfEven_eq_iff (Nat.mul_pos hb hc)).1 hn
  obtain ⟨hqlow, hqhigh, hqeven⟩ := (halfEven_eq_iff hb).1 (Eq.refl (halfEven p b))
  rw [halfEven_eq_iff hc]
  generalize halfEven p b = q at *
  have hcn : (c * n) % 4 = 0 := by rw [Nat.mul_mod, hc₄, Nat.zero_mul, Nat.zero_mod]
  zify at *
  constructor
  · rintro ⟨hl, hh, heven⟩
    refine or_iff_not_imp_left.2 fun hodd => ⟨?_, ?_⟩
    · -- the second rounding met no tie, so its argument was two halves away from one
      have := lt_mul_of_rounded (p := p) (q := q) (m := 2 * (c * n) + c) hb (by linarith)
        (fun h => hqeven (.inl (by linarith))) (by omega) (by omega)
      linarith
    · have htie : 2 * -(p : ℤ) = b * (2 * -q + 1) → -(q : ℤ) % 2 = 0 := by
        intro h
        have := hqeven (.inr (by linarith))
        omega
      have := lt_mul_of_rounded (p := -p) (q := -q) (m := c - 2 * (c * n)) hb (by linarith) htie
        (by omega) (by omega)
      linarith
  · rintro (heven | ⟨hl, hh⟩)
    · have hle := two_mul_le_of_rounded (p := p) (q := q) (m := 2 * (c * n) + c) hb (by linarith)
        (by omega) (by linarith)
      have hge := two_mul_le_of_rounded (p := -p) (q := -q) (m := c - 2 * (c * n)) hb
        (by linarith) (by omega) (by linarith)
      exact ⟨by linarith, by linarith, fun _ => heven⟩
    · have hlt := two_mul_lt_of_rounded (p := p) (q := q) (m := 2 * (c * n) + c) hb (by linarith)
        (by linarith)
      have hgt := two_mul_lt_of_rounded (p := -p) (q := -q) (m := c - 2 * (c * n)) hb
        (by linarith) (by linarith)
      exact ⟨by linarith, by linarith, fun h => by omega⟩

end

end PriceFeed
