/-
  PriceFeed — what the floors of an exponential lose.

  Without its floors, a chain gives an exact rational number (`Horner.risingExact`,
  `Horner.fallingExact`).  The floors of its steps take no more than twice the fraction from
  a growth chain, and move a decay chain by less than nine eighths; for both, that is found at
  the fraction one, where the drift is greatest.  What follows the chain is rounded to half a
  unit of the result (`Grows.near_half`), or drops less than one (`Decays.near`).

  * `exponentials_near_exact`: so far are both exponentials, at most, from the exact value of
    their chain, moved by the integer part.
-/
import PriceFeed.Proofs.Exponential.Decay
import PriceFeed.Proofs.Exponential.Growth
import PriceFeed.Proofs.Horner.Drift

namespace PriceFeed

/-! ## The chains -/

namespace Precision

variable (p : Precision)

/-- The last step of a growth chain multiplies this drift by the argument. -/
theorem growthTable_drift_top : (p.growthTable.take (p.order - 1)).drift (2 ^ 30) ≤ 2 := by
  cases p <;> decide +kernel

theorem decayTable_drift_top : p.decayTable.drift (2 ^ 30) < 9 / 8 := by
  cases p <;> decide +kernel

theorem growthTable_drift {d : ℚ} (h₀ : 0 ≤ d) (h₁ : d ≤ 2 ^ 30) : p.growthTable.drift d ≤ 2 * d := by
  have htake : (p.growthTable.take (p.order - 1)).drift d ≤ 2 :=
    (Horner.drift_mono _ h₁ h₀).trans p.growthTable_drift_top
  rw [growthTable_concat, Horner.drift_concat]
  calc Horner.Step.drift ⟨0, 0⟩ d ((p.growthTable.take (p.order - 1)).drift d)
      = (p.growthTable.take (p.order - 1)).drift d * d := by simp [Horner.Step.drift]
    _ ≤ 2 * d := mul_le_mul_of_nonneg_right htake h₀

theorem decayTable_drift {d : ℚ} (h₀ : 0 ≤ d) (h₁ : d ≤ 2 ^ 30) : p.decayTable.drift d < 9 / 8 :=
  (Horner.drift_mono _ h₁ h₀).trans_lt p.decayTable_drift_top

variable {d y : UInt64} (hd : d.toNat < 2 ^ 30)
include hd

theorem growthTable_near_exact (hy : p.growthTable.rising d = .ok y) :
    p.growthTable.risingExact d.toNat - 2 * d.toNat ≤ y.toNat ∧
      y.toNat ≤ p.growthTable.risingExact d.toNat := by
  obtain ⟨hlow, hhigh⟩ := Horner.rising_drift hy
  have hdrift := p.growthTable_drift (d := d.toNat) (by positivity) (by exact_mod_cast hd.le)
  exact ⟨by linarith, hhigh⟩

theorem decayTable_near_exact (hy : p.decayTable.falling d = .ok y) :
    |(y.toNat : ℚ) - p.decayTable.fallingExact d.toNat| < 9 / 8 :=
  (Horner.falling_drift hy).trans_lt
    (p.decayTable_drift (by positivity) (by exact_mod_cast hd.le))

end Precision

/-! ## The exponentials -/

namespace Fixed

section
variable {K : Type*} [Field K] [LinearOrder K] [IsStrictOrderedRing K]
variable {p : Precision} {x g e : Fixed} {y : UInt64}

/-- What is rounded after a growth chain is at most half a unit. -/
theorem Grows.near_half (h : Grows p x y g e) (hi : x.integerPart.toNat < 34) :
    |2 ^ (34 - x.integerPart.toNat) * (e.raw.toNat : K) - (y.toNat + 2 ^ 64)| ≤
      2 ^ (33 - x.integerPart.toNat) := by
  obtain ⟨hlow, hhigh⟩ := recompose_near (y := y.toNat) hi
  rw [← h.power_eq] at hlow hhigh
  rw [abs_sub_le_iff, sub_le_iff_le_add', sub_le_iff_le_add']
  exact ⟨by exact_mod_cast hhigh, by exact_mod_cast hlow⟩

/-- What is dropped after a decay chain is less than a unit. -/
theorem Decays.near (h : Decays p x y g) :
    |2 ^ x.integerPart.toNat * (g.raw.toNat : K) - y.toNat| ≤ 2 ^ x.integerPart.toNat - 1 := by
  have hlow : y.toNat + 1 ≤ 2 ^ x.integerPart.toNat * (g.raw.toNat + 1) := by
    rw [h.decay_eq]
    exact Nat.lt_mul_div_succ _ (by positivity)
  have hhigh : 2 ^ x.integerPart.toNat * g.raw.toNat ≤ y.toNat := by
    rw [h.decay_eq]
    exact Nat.mul_div_le _ _
  have hlow' : (y.toNat : K) + 1 ≤ 2 ^ x.integerPart.toNat * (g.raw.toNat + 1) := by
    exact_mod_cast hlow
  have hhigh' : 2 ^ x.integerPart.toNat * (g.raw.toNat : K) ≤ y.toNat := by exact_mod_cast hhigh
  have hunit : (1 : K) ≤ 2 ^ x.integerPart.toNat := one_le_pow₀ one_le_two
  rw [abs_sub_le_iff]
  constructor <;> linarith

end

variable {p : Precision} {x g e : Fixed} {y : UInt64}

/-- Twice the fraction is at most an eighth of `2 ^ i` units, for `i` before the point. -/
theorem Grows.near_exact (h : Grows p x y g e) (hi : x.integerPart.toNat < 34) :
    -(1 / 2) - 2 ^ x.integerPart.toNat / 8 ≤ (e.raw.toNat : ℚ) - (2 ^ (30 + x.integerPart.toNat) +
        p.growthTable.risingExact x.fractionPart.toNat / 2 ^ (34 - x.integerPart.toNat)) ∧
      (e.raw.toNat : ℚ) - (2 ^ (30 + x.integerPart.toNat) +
        p.growthTable.risingExact x.fractionPart.toNat / 2 ^ (34 - x.integerPart.toNat)) ≤
        1 / 2 := by
  obtain ⟨hchain_low, hchain_high⟩ := p.growthTable_near_exact x.fractionPart_lt h.rising
  obtain ⟨hlow, hhigh⟩ := abs_le.1 (h.near_half (K := ℚ) hi)
  have hd : (x.fractionPart.toNat : ℚ) ≤ 2 ^ 30 := by exact_mod_cast x.fractionPart_lt.le
  have hdouble : (2 : ℚ) ^ (34 - x.integerPart.toNat) = 2 * 2 ^ (33 - x.integerPart.toNat) := by
    exact_mod_cast two_pow_unit hi
  have hunits : (2 : ℚ) ^ x.integerPart.toNat * 2 ^ (34 - x.integerPart.toNat) = 2 ^ 34 := by
    rw [← pow_add, show x.integerPart.toNat + (34 - x.integerPart.toNat) = 34 by omega]
  have hmoved : (2 : ℚ) ^ (30 + x.integerPart.toNat) * 2 ^ (34 - x.integerPart.toNat) = 2 ^ 64 := by
    rw [pow_add, mul_assoc, hunits, ← pow_add]
  have hpos : (0 : ℚ) < 2 ^ (34 - x.integerPart.toNat) := by positivity
  -- everything in units of what is dropped after the chain
  rw [← sub_sub, sub_div' hpos.ne', le_div_iff₀ hpos, div_le_iff₀ hpos, sub_mul, sub_mul, hmoved,
    div_mul_eq_mul_div _ (8 : ℚ), hunits, mul_comm (e.raw.toNat : ℚ)]
  constructor <;> linarith

theorem Decays.near_exact (h : Decays p x y g) :
    |(g.raw.toNat : ℚ) -
      p.decayTable.fallingExact x.fractionPart.toNat / 2 ^ x.integerPart.toNat| < 9 / 8 := by
  have hchain := p.decayTable_near_exact x.fractionPart_lt h.falling
  have hunit : (1 : ℚ) ≤ 2 ^ x.integerPart.toNat := one_le_pow₀ one_le_two
  have hpos : (0 : ℚ) < 2 ^ x.integerPart.toNat := by positivity
  rw [sub_div' hpos.ne', abs_div, abs_of_pos hpos, div_lt_iff₀ hpos, mul_comm (g.raw.toNat : ℚ)]
  calc |2 ^ x.integerPart.toNat * (g.raw.toNat : ℚ) -
        p.decayTable.fallingExact x.fractionPart.toNat|
      ≤ |2 ^ x.integerPart.toNat * (g.raw.toNat : ℚ) - y.toNat| +
          |(y.toNat : ℚ) - p.decayTable.fallingExact x.fractionPart.toNat| := abs_sub_le _ _ _
    _ < (2 ^ x.integerPart.toNat - 1) + 9 / 8 := add_lt_add_of_le_of_lt h.near hchain
    _ ≤ 9 / 8 * 2 ^ x.integerPart.toNat := by linarith

variable (p)

/-- **The exponentials are near the exact values of their chains.**  For `x = i + d / 2 ^ 30`, a
    power within the range is no more than half a unit above the chain's value at `d` without
    floors, moved down by `34 - i` bits and up by `2 ^ (30 + i)`, and no more than half a unit and
    `2 ^ i / 8` units below it; a shrinking exponential is less than nine eighths of a unit from
    the chain's value without floors, moved down by `i` bits. -/
theorem exponentials_near_exact :
    (∀ (x : Fixed) (i d : Nat), x.raw.toNat = 2 ^ 30 * i + d → d < 2 ^ 30 →
      x.raw.toNat ≤ 34 * 2 ^ 30 - 1 →
      ∃ e, x.powerAt p = .ok e ∧
        -(1 / 2) - 2 ^ i / 8 ≤ (e.raw.toNat : ℚ) -
          (2 ^ (30 + i) + p.growthTable.risingExact d / 2 ^ (34 - i)) ∧
        (e.raw.toNat : ℚ) - (2 ^ (30 + i) + p.growthTable.risingExact d / 2 ^ (34 - i)) ≤ 1 / 2) ∧
    ∀ (x : Fixed) (i d : Nat), x.raw.toNat = 2 ^ 30 * i + d → d < 2 ^ 30 →
      ∃ g, x.decayAt p = .ok g ∧
        |(g.raw.toNat : ℚ) - p.decayTable.fallingExact d / 2 ^ i| < 9 / 8 := by
  constructor
  · intro x i d hparts hd hlimit
    have hx := le_growthLimit_iff.2 hlimit
    obtain ⟨y, g, e, h⟩ := exists_grows p hx
    obtain ⟨rfl, rfl⟩ := toNat_parts_eq hparts hd
    exact ⟨e, h.powerAt, h.near_exact (integerPart_lt hx)⟩
  · intro x i d hparts hd
    obtain ⟨y, g, h⟩ := exists_decays p x
    obtain ⟨rfl, rfl⟩ := toNat_parts_eq hparts hd
    exact ⟨g, h.decayAt, h.near_exact⟩

/-- With the most steps, at the last argument of the growing exponential, where the floors are
    moved up the furthest, and at the last argument of the first unit interval. -/
theorem exponentials_near_exact_limit :
    (∃ e, (⟨growthLimit⟩ : Fixed).powerAt .seven = .ok e ∧
      -(1 / 2) - 2 ^ 33 / 8 ≤ (e.raw.toNat : ℚ) -
        (2 ^ 63 + Precision.seven.growthTable.risingExact (2 ^ 30 - 1) / 2) ∧
      (e.raw.toNat : ℚ) -
        (2 ^ 63 + Precision.seven.growthTable.risingExact (2 ^ 30 - 1) / 2) ≤ 1 / 2) ∧
    ∃ g, (⟨0x3fffffff⟩ : Fixed).decayAt .seven = .ok g ∧
      |(g.raw.toNat : ℚ) - Precision.seven.decayTable.fallingExact (2 ^ 30 - 1)| < 9 / 8 := by
  obtain ⟨e, he, hnear⟩ := (exponentials_near_exact .seven).1 ⟨growthLimit⟩ 33 (2 ^ 30 - 1)
    (by decide) (by decide) (by decide)
  obtain ⟨g, hg, hnear'⟩ := (exponentials_near_exact .seven).2 ⟨0x3fffffff⟩ 0 (2 ^ 30 - 1)
    (by decide) (by decide)
  norm_num at hnear hnear' ⊢
  exact ⟨⟨e, he, hnear⟩, g, hg, hnear'⟩

end Fixed

end PriceFeed
