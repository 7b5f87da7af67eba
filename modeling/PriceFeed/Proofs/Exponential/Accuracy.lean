/-
  PriceFeed — how close the exponentials come to powers of two.

  The power of an argument is that of its fraction, moved by its integer part
  (`Fixed.mul_two_rpow_toRat`, `Fixed.mul_two_rpow_neg_toRat`).  So the error of a chain is
  moved as its value is, and stays the same relative to the power; what is rounded or dropped
  after the chain is no more than one unit of the result (`Grows.near`, `Decays.near`).

  * `growth_accuracy`: within the range, the growing exponential is no further from
    `2 ^ 30 · (2 ^ x - 1)` than a tenth more than promised, relative to `2 ^ 30 · 2 ^ x`,
    and one unit;
  * `decay_accuracy`: the shrinking exponential is no further from `2 ^ 30 · 2 ^ -x` than a
    tenth more than promised, relative to it, and one unit.
-/
import PriceFeed.Proofs.Exponential.AccuracyTable

namespace PriceFeed.Fixed

/-- A value is its integer part and its fraction. -/
theorem toRat_eq (x : Fixed) :
    (x.toRat : ℝ) = x.integerPart.toNat + (x.fractionPart.toNat : ℝ) / 2 ^ 30 := by
  rw [toRat, toNat_raw x]
  push_cast
  ring

/-- The power of a value, in units of what is dropped after a growth chain. -/
theorem mul_two_rpow_toRat {x : Fixed} (hi : x.integerPart.toNat < 34) :
    2 ^ (34 - x.integerPart.toNat) * (2 ^ 30 * (2 : ℝ) ^ (x.toRat : ℝ)) =
      2 ^ 64 * (2 : ℝ) ^ ((x.fractionPart.toNat : ℝ) / 2 ^ 30) := by
  have hprod : (2 : ℝ) ^ (34 - x.integerPart.toNat) * 2 ^ x.integerPart.toNat = 2 ^ 34 := by
    rw [← pow_add, Nat.sub_add_cancel hi.le]
  rw [toRat_eq, Real.rpow_add two_pos, Real.rpow_natCast, ← mul_assoc, mul_right_comm,
    ← mul_assoc, hprod]
  ring

/-- The power of the negated value, in units of what is dropped after a decay chain. -/
theorem mul_two_rpow_neg_toRat (x : Fixed) :
    2 ^ x.integerPart.toNat * (2 ^ 30 * (2 : ℝ) ^ (-(x.toRat : ℝ))) =
      2 ^ 30 * (2 : ℝ) ^ (-((x.fractionPart.toNat : ℝ) / 2 ^ 30)) := by
  rw [toRat_eq, neg_add, Real.rpow_add two_pos, Real.rpow_neg two_pos.le, Real.rpow_natCast]
  field_simp

/-- What is said of values multiplied by `s` holds of the values, with one unit for `s`. -/
theorem abs_sub_le_of_mul {s v w k : ℝ} (hs : 0 < s) (h : |s * v - s * w| ≤ k * (s * w) + s) :
    |v - w| ≤ k * w + 1 := by
  rw [← mul_sub, abs_mul, abs_of_pos hs, show k * (s * w) + s = s * (k * w + 1) by ring] at h
  exact le_of_mul_le_mul_left h hs

variable {p : Precision} {x g e : Fixed} {y : UInt64}

/-- What is rounded after a growth chain is at most a unit. -/
theorem Grows.near (h : Grows p x y g e) (hi : x.integerPart.toNat < 34) :
    |2 ^ (34 - x.integerPart.toNat) * ((g.raw.toNat : ℝ) + 2 ^ 30) - (y.toNat + 2 ^ 64)| ≤
      2 ^ (34 - x.integerPart.toNat) := by
  have hadd : (g.raw.toNat : ℝ) + 2 ^ 30 = e.raw.toNat := by exact_mod_cast h.growth_add
  rw [hadd]
  exact (h.near_half hi).trans (pow_le_pow_right₀ one_le_two (by omega))

variable (p)

/-- **The growing exponential keeps to its error**, up to the end of its range. -/
theorem growth_accuracy {x : Fixed} (hx : x.raw.toNat < 34 * 2 ^ 30) :
    ∃ g, x.growthAt p = .ok g ∧
      |(g.raw.toNat : ℝ) + 2 ^ 30 - 2 ^ 30 * (2 : ℝ) ^ (x.toRat : ℝ)| ≤
        (11 / 10 * p.accuracy.powerError.toRat : ℚ) * (2 ^ 30 * (2 : ℝ) ^ (x.toRat : ℝ)) + 1 := by
  have hlimit : x.raw ≤ growthLimit := UInt64.le_iff_toNat_le.2 (Nat.le_sub_one_of_lt hx)
  obtain ⟨y, g, e, h⟩ := exists_grows p hlimit
  have hi := integerPart_lt hlimit
  -- everything in units of what is dropped after the chain
  refine ⟨g, h.growthAt, abs_sub_le_of_mul (s := 2 ^ (34 - x.integerPart.toNat)) (by positivity) ?_⟩
  rw [mul_two_rpow_toRat hi]
  calc |2 ^ (34 - x.integerPart.toNat) * ((g.raw.toNat : ℝ) + 2 ^ 30) -
        2 ^ 64 * (2 : ℝ) ^ ((x.fractionPart.toNat : ℝ) / 2 ^ 30)|
      ≤ |2 ^ (34 - x.integerPart.toNat) * ((g.raw.toNat : ℝ) + 2 ^ 30) - (y.toNat + 2 ^ 64)| +
          |(y.toNat : ℝ) + 2 ^ 64 - 2 ^ 64 * (2 : ℝ) ^ ((x.fractionPart.toNat : ℝ) / 2 ^ 30)| :=
        abs_sub_le _ _ _
    _ ≤ 2 ^ (34 - x.integerPart.toNat) +
          p.powerBound * (2 ^ 64 * (2 : ℝ) ^ ((x.fractionPart.toNat : ℝ) / 2 ^ 30)) :=
        add_le_add (h.near hi) (p.growthTable_accuracy x.fractionPart_lt h.rising)
    _ = _ := add_comm _ _

/-- At the last argument of the range, with the most steps. -/
theorem growth_accuracy_limit :
    ∃ g, (⟨growthLimit⟩ : Fixed).growthAt .seven = .ok g ∧
      |(g.raw.toNat : ℝ) + 2 ^ 30 - 2 ^ 30 * (2 : ℝ) ^ (34 - 1 / 2 ^ 30 : ℝ)| ≤
        594 / 10 ^ 12 * (2 ^ 30 * (2 : ℝ) ^ (34 - 1 / 2 ^ 30 : ℝ)) + 1 := by
  obtain ⟨g, hg, hacc⟩ := growth_accuracy .seven (x := ⟨growthLimit⟩) (by decide)
  have hx : (((⟨growthLimit⟩ : Fixed).toRat : ℚ) : ℝ) = 34 - 1 / 2 ^ 30 := by
    rw [show (⟨growthLimit⟩ : Fixed).toRat = 34 - 1 / 2 ^ 30 by decide +kernel]
    push_cast
    rfl
  have herror : ((11 / 10 * Precision.seven.accuracy.powerError.toRat : ℚ) : ℝ) = 594 / 10 ^ 12 := by
    rw [show 11 / 10 * Precision.seven.accuracy.powerError.toRat = 594 / 10 ^ 12 by decide +kernel]
    push_cast
    rfl
  rw [hx, herror] at hacc
  exact ⟨g, hg, hacc⟩

/-- **The shrinking exponential keeps to its error**, for every argument. -/
theorem decay_accuracy (x : Fixed) :
    ∃ g, x.decayAt p = .ok g ∧
      |(g.raw.toNat : ℝ) - 2 ^ 30 * (2 : ℝ) ^ (-(x.toRat : ℝ))| ≤
        (11 / 10 * p.accuracy.decayError.toRat : ℚ) * (2 ^ 30 * (2 : ℝ) ^ (-(x.toRat : ℝ))) + 1 := by
  obtain ⟨y, g, h⟩ := exists_decays p x
  refine ⟨g, h.decayAt, abs_sub_le_of_mul (s := 2 ^ x.integerPart.toNat) (by positivity) ?_⟩
  rw [mul_two_rpow_neg_toRat]
  calc |2 ^ x.integerPart.toNat * (g.raw.toNat : ℝ) -
        2 ^ 30 * (2 : ℝ) ^ (-((x.fractionPart.toNat : ℝ) / 2 ^ 30))|
      ≤ |2 ^ x.integerPart.toNat * (g.raw.toNat : ℝ) - y.toNat| +
          |(y.toNat : ℝ) - 2 ^ 30 * (2 : ℝ) ^ (-((x.fractionPart.toNat : ℝ) / 2 ^ 30))| :=
        abs_sub_le _ _ _
    _ ≤ (2 ^ x.integerPart.toNat - 1) +
          (p.decayBound * (2 ^ 30 * (2 : ℝ) ^ (-((x.fractionPart.toNat : ℝ) / 2 ^ 30))) + 1) :=
        add_le_add h.near (p.decayTable_accuracy x.fractionPart_lt h.falling)
    _ = _ := by
        rw [Precision.decayBound]
        ring

end PriceFeed.Fixed
