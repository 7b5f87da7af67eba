/-
  PriceFeed — the exponentials of arguments that differ by an integer.

  Such arguments have the same fraction, so the same value `y` of the chain, of which they drop
  a different number of bits.  In units of what is dropped after the larger one, both results
  stand for `y + 2 ^ 64`: the larger to within half a unit, the smaller, multiplied by `2 ^ n`, to
  within `2 ^ (n - 1)` units (`recompose_near`).  Between integers that leaves `2 ^ (n - 1)`.
  A shrinking exponential rounds nothing up, so what it drops at once it can as well drop in turn.

  * `power_scaling`: `2 ^ (x + n)` is no further than that from `2 ^ n` times `2 ^ x`;
  * `decay_scaling`: `2 ^ -(x + n)` is `2 ^ -x` divided by `2 ^ n`, rounded down.
-/
import PriceFeed.Proofs.Exponential.Decay
import PriceFeed.Proofs.Exponential.Growth

namespace PriceFeed

/-- The same value of the chain, recomposed at an integer part that is larger by `n`. -/
theorem abs_recompose_add_sub_le {y i n : Nat} (hn : 1 ≤ n) (hi : i + n < 34) :
    |(recompose y (i + n) : ℤ) - 2 ^ n * recompose y i| ≤ 2 ^ (n - 1) := by
  -- `u` is half a unit of the larger result, and `m` half of the factor
  obtain ⟨u, hu⟩ : ∃ u, u = 2 ^ (33 - (i + n)) := ⟨_, rfl⟩
  obtain ⟨m, hm⟩ : ∃ m, m = 2 ^ (n - 1) := ⟨_, rfl⟩
  have hfactor : 2 ^ n = 2 * m := by
    rw [hm, ← pow_succ', Nat.sub_add_cancel hn]
  have hfine : 2 ^ (34 - (i + n)) = 2 * u := by
    rw [hu, ← pow_succ', show 33 - (i + n) + 1 = 34 - (i + n) by omega]
  have hcoarse : 2 ^ (33 - i) = 2 * u * m := by
    rw [← hfine, hm, ← pow_add, show 34 - (i + n) + (n - 1) = 33 - i by omega]
  have hcoarse_unit : 2 ^ (34 - i) = 2 * u * (2 * m) := by
    rw [← hfine, ← hfactor, ← pow_add, show 34 - (i + n) + n = 34 - i by omega]
  have hpos : 0 < 2 * u := by rw [← hfine]; positivity
  obtain ⟨hlow, hhigh⟩ := recompose_near (y := y) hi
  obtain ⟨hlow', hhigh'⟩ := recompose_near (y := y) (show i < 34 by omega)
  rw [hfine, ← hu] at hlow hhigh
  rw [hcoarse_unit, hcoarse, mul_assoc] at hlow' hhigh'
  zify at hpos hfactor hm hlow hhigh hlow' hhigh'
  rw [hfactor, ← hm, abs_le]
  constructor
  · -- one unit less would be too far
    refine Int.le_of_lt_add_one (lt_of_mul_lt_mul_left ?_ hpos.le)
    linarith
  · refine Int.le_of_lt_add_one (lt_of_mul_lt_mul_left ?_ hpos.le)
    linarith

namespace Fixed

variable (p : Precision)

/-- **An argument that is larger by `n` has a power that is larger by the factor `2 ^ n`**, up to
    `2 ^ (n - 1)` units, which the rounding of the smaller one leaves open. -/
theorem power_scaling {x x' : Fixed} {n : Nat} (hn : 1 ≤ n)
    (hadd : x'.raw.toNat = x.raw.toNat + n * 2 ^ 30) (hlimit : x'.raw.toNat ≤ 34 * 2 ^ 30 - 1) :
    ∃ e e', x.powerAt p = .ok e ∧ x'.powerAt p = .ok e' ∧
      |(e'.raw.toNat : ℤ) - 2 ^ n * e.raw.toNat| ≤ 2 ^ (n - 1) := by
  have hx' := le_growthLimit_iff.2 hlimit
  have hx : x.raw ≤ growthLimit := le_growthLimit_iff.2 (by omega)
  obtain ⟨y, g, e, h⟩ := exists_grows p hx
  obtain ⟨y', g', e', h'⟩ := exists_grows p hx'
  obtain ⟨hi, hd⟩ := toNat_parts_add hadd
  have hrising := h'.rising
  rw [hd] at hrising
  obtain rfl : y = y' := eq_of_eq_ok h.rising hrising
  refine ⟨e, e', h.powerAt, h'.powerAt, ?_⟩
  have hi_lt := integerPart_lt hx'
  rw [h'.power_eq, h.power_eq, hi]
  exact abs_recompose_add_sub_le hn (hi ▸ hi_lt)

/-- From the last argument below one to the last one of the range. -/
theorem power_scaling_limit :
    ∃ e e', (⟨0x3fffffff⟩ : Fixed).powerAt .seven = .ok e ∧
      (⟨growthLimit⟩ : Fixed).powerAt .seven = .ok e' ∧
      |(e'.raw.toNat : ℤ) - 2 ^ 33 * e.raw.toNat| ≤ 2 ^ 32 :=
  power_scaling .seven (by decide) (by decide) (by decide)

/-- **An argument that is larger by `n` has a shrinking exponential that is the smaller one's
    divided by `2 ^ n`**, rounded down, whether or not anything is left of either. -/
theorem decay_scaling {x x' : Fixed} {n : Nat}
    (hadd : x'.raw.toNat = x.raw.toNat + n * 2 ^ 30) :
    ∃ g g', x.decayAt p = .ok g ∧ x'.decayAt p = .ok g' ∧
      g'.raw.toNat = g.raw.toNat / 2 ^ n := by
  obtain ⟨y, g, h⟩ := exists_decays p x
  obtain ⟨y', g', h'⟩ := exists_decays p x'
  obtain ⟨hi, hd⟩ := toNat_parts_add hadd
  have hfalling := h'.falling
  rw [hd] at hfalling
  obtain rfl : y = y' := eq_of_eq_ok h.falling hfalling
  refine ⟨g, g', h.decayAt, h'.decayAt, ?_⟩
  rw [h'.decay_eq, h.decay_eq, hi, pow_add, Nat.div_div_eq_div_mul]

/-- While something is left, and past the 63 bits that can be dropped at once. -/
theorem decay_scaling_past :
    (∃ g g', (⟨0x3fffffff⟩ : Fixed).decayAt .seven = .ok g ∧
      (⟨0x73fffffff⟩ : Fixed).decayAt .seven = .ok g' ∧
      g'.raw.toNat = g.raw.toNat / 2 ^ 28) ∧
    ∃ g g', (⟨0xfffffffff⟩ : Fixed).decayAt .seven = .ok g ∧
      (⟨0x103fffffff⟩ : Fixed).decayAt .seven = .ok g' ∧ g'.raw.toNat = g.raw.toNat / 2 ^ 1 :=
  ⟨decay_scaling .seven (by decide), decay_scaling .seven (by decide)⟩

end Fixed

end PriceFeed
