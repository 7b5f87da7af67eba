/-
  PriceFeed — how close the chains come to powers of two.

  A chain without floors is a polynomial (`Horner.eval_risingPoly`, `Horner.eval_fallingPoly`),
  and its floors move its value by no more than twice the argument for a growth chain, nine
  eighths for a decay chain (`growthTable_near_exact`, `decayTable_near_exact`).  That much
  added or taken away, the polynomials are found to stay on their side of a power of two,
  widened by the error that is promised and a tenth of it (`growthTable_below`,
  `growthTable_above`, `decayTable_below`, `decayTable_above`).  So each chain keeps to its
  error, whatever its argument is:

  * `growthTable_accuracy`: a growth chain, relative to the power;
  * `decayTable_accuracy`: a decay chain, relative to the power, and one unit more.
-/
import PriceFeed.Fixed.Value
import PriceFeed.Proofs.Exponential.Floors
import PriceFeed.Proofs.Horner.Polynomial
import PriceFeed.Proofs.Polynomial.Power

namespace PriceFeed.Precision

variable (p : Precision)

/-- The relative error of `2 ^ x`: a tenth more than promised. -/
def powerBound : ℚ :=
  11 / 10 * p.accuracy.powerError.toRat

/-- The relative error of `2 ^ -x`: a tenth more than promised. -/
def decayBound : ℚ :=
  11 / 10 * p.accuracy.decayError.toRat

/-! ## The polynomials -/

theorem growthTable_below : (Poly.add [2 ^ 64] p.growthTable.risingPoly).Below
    ((1 + p.powerBound) * 2 ^ 64) Poly.logBelow := by
  cases p <;> decide +kernel

theorem growthTable_above : (Poly.add [2 ^ 64, -2 ^ 31] p.growthTable.risingPoly).Above
    ((1 - p.powerBound) * 2 ^ 64) Poly.logAbove := by
  cases p <;> decide +kernel

theorem decayTable_below : (Poly.add [1 / 8] p.decayTable.fallingPoly).Below
    ((1 + p.decayBound) * 2 ^ 30) (-Poly.logAbove) := by
  cases p <;> decide +kernel

theorem decayTable_above : (Poly.add [-(1 / 8)] p.decayTable.fallingPoly).Above
    ((1 - p.decayBound) * 2 ^ 30) (-Poly.logBelow) := by
  cases p <;> decide +kernel

/-! ## The chains -/

theorem fraction_bounds {d : UInt64} (hd : d.toNat < 2 ^ 30) :
    (0 : ℚ) ≤ d.toNat / 2 ^ 30 ∧ (d.toNat / 2 ^ 30 : ℚ) ≤ 1 ∧
      (2 ^ 30 * (d.toNat / 2 ^ 30) : ℚ) = d.toNat := by
  refine ⟨by positivity, ?_, by ring⟩
  rw [div_le_one (by positivity)]
  exact_mod_cast hd.le

variable {d y : UInt64} (hd : d.toNat < 2 ^ 30)
include hd

/-- **A growth chain keeps to its error.** -/
theorem growthTable_accuracy (hy : p.growthTable.rising d = .ok y) :
    |(y.toNat : ℝ) + 2 ^ 64 - 2 ^ 64 * (2 : ℝ) ^ ((d.toNat : ℝ) / 2 ^ 30)| ≤
      p.powerBound * (2 ^ 64 * (2 : ℝ) ^ ((d.toNat : ℝ) / 2 ^ 30)) := by
  obtain ⟨h₀, h₁, hscale⟩ := fraction_bounds hd
  obtain ⟨hlow, hhigh⟩ := p.growthTable_near_exact hd hy
  have hbelow := p.growthTable_below.le_exp h₀ h₁ Poly.logBelow_le
  have habove := p.growthTable_above.exp_le h₀ h₁ Poly.le_logAbove
  rw [← Real.rpow_def_of_pos two_pos] at hbelow habove
  simp only [Poly.eval_add, Poly.eval_cons, Poly.eval_nil, Horner.eval_risingPoly, hscale]
    at hbelow habove
  have hlow' : (p.growthTable.risingExact d.toNat : ℝ) - 2 * d.toNat ≤ y.toNat := by
    exact_mod_cast hlow
  have hhigh' : (y.toNat : ℝ) ≤ p.growthTable.risingExact d.toNat := by exact_mod_cast hhigh
  push_cast at hbelow habove ⊢
  rw [abs_le]
  constructor <;> linarith

/-- **A decay chain keeps to its error**, and to one unit for its floors. -/
theorem decayTable_accuracy (hy : p.decayTable.falling d = .ok y) :
    |(y.toNat : ℝ) - 2 ^ 30 * (2 : ℝ) ^ (-((d.toNat : ℝ) / 2 ^ 30))| ≤
      p.decayBound * (2 ^ 30 * (2 : ℝ) ^ (-((d.toNat : ℝ) / 2 ^ 30))) + 1 := by
  obtain ⟨h₀, h₁, hscale⟩ := fraction_bounds hd
  have hnear : |(y.toNat : ℝ) - p.decayTable.fallingExact d.toNat| ≤ (9 / 8 : ℚ) := by
    exact_mod_cast (p.decayTable_near_exact hd hy).le
  have hbelow := p.decayTable_below.le_exp h₀ h₁ (a := -Real.log 2)
    (by push_cast; exact neg_le_neg Poly.le_logAbove)
  have habove := p.decayTable_above.exp_le h₀ h₁ (a := -Real.log 2)
    (by push_cast; exact neg_le_neg Poly.logBelow_le)
  rw [neg_mul, ← mul_neg, ← Real.rpow_def_of_pos two_pos] at hbelow habove
  simp only [Poly.eval_add, Poly.eval_cons, Poly.eval_nil, Horner.eval_fallingPoly, hscale]
    at hbelow habove
  push_cast at hbelow habove hnear ⊢
  rw [abs_le] at hnear ⊢
  constructor <;> linarith

end PriceFeed.Precision
