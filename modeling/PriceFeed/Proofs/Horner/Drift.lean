/-
  PriceFeed — how far the floors of a chain move its value.

  A step drops the low bits of its product, which is less than one unit, and passes on
  the error of the value before it, scaled as the product is.  A step that adds keeps the
  value from above the exact one; a step that subtracts turns the error round, so there the
  bound is on both sides.

  * `rising_drift`, `falling_drift`: a chain that answers is no further than `drift` from
    the chain without floors, both directions together in `truncation`;
  * `drift_mono`: the bound grows with the argument.
-/
import PriceFeed.Proofs.Horner.Falling

namespace PriceFeed.Horner

/-- The bound after a step, if the value before it is off by `e`. -/
def Step.drift (s : Step) (d e : ℚ) : ℚ :=
  e * d / 2 ^ s.shift + (1 - 1 / 2 ^ s.shift)

theorem drift_concat (lead : UInt64) (steps : List Step) (s : Step) (d : ℚ) :
    drift ⟨lead, steps ++ [s]⟩ d = s.drift d (drift ⟨lead, steps⟩ d) := by
  unfold drift
  rw [List.foldl_append]
  rfl

/-! ## One floor -/

section
variable (a : Nat) (k : Nat)

theorem floor_le : ((a >>> k : Nat) : ℚ) ≤ a / 2 ^ k := by
  rw [Nat.shiftRight_eq_div_pow]
  exact_mod_cast Nat.cast_div_le (α := ℚ) (m := a) (n := 2 ^ k)

theorem le_floor : (a : ℚ) / 2 ^ k - (1 - 1 / 2 ^ k) ≤ ((a >>> k : Nat) : ℚ) := by
  have hpos : (0 : ℚ) < 2 ^ k := by positivity
  have hlt : a < 2 ^ k * (a / 2 ^ k + 1) := Nat.lt_mul_div_succ a (by positivity)
  have hle : (a : ℚ) + 1 ≤ 2 ^ k * ((a / 2 ^ k : Nat) + 1) := by exact_mod_cast hlt
  rw [Nat.shiftRight_eq_div_pow, sub_le_iff_le_add, ← add_sub_assoc, le_sub_iff_add_le, ← add_div,
    div_le_iff₀ hpos]
  linarith

end

/-! ## Steps -/

section
variable {s : Step} {d y z : UInt64} {v e : ℚ}

/-- A step that adds does not lift the value above the exact one, `v` before it. -/
theorem Step.rise_drift (hz : s.rise d y = .ok z) (hlow : v - e ≤ y.toNat) (hhigh : y.toNat ≤ v) :
    s.riseExact d.toNat v - s.drift d.toNat e ≤ z.toNat ∧ z.toNat ≤ s.riseExact d.toNat v := by
  have hle := floor_le (y.toNat * d.toNat) s.shift
  have hge := le_floor (y.toNat * d.toNat) s.shift
  have hprod_low : (v - e) * d.toNat / 2 ^ s.shift ≤ y.toNat * d.toNat / 2 ^ s.shift := by gcongr
  have hprod_high : y.toNat * d.toNat / 2 ^ s.shift ≤ v * d.toNat / 2 ^ s.shift := by gcongr
  rw [sub_mul, sub_div] at hprod_low
  rw [(Step.rise_eq_ok.1 hz).2.2]
  push_cast at hle hge ⊢
  unfold Step.riseExact Step.drift
  constructor <;> linarith

/-- A step that subtracts turns the error round. -/
theorem Step.fall_drift (hz : s.fall d y = .ok z) (hy : |(y.toNat : ℚ) - v| ≤ e) :
    |(z.toNat : ℚ) - s.fallExact d.toNat v| ≤ s.drift d.toNat e := by
  have hle := floor_le (y.toNat * d.toNat) s.shift
  have hge := le_floor (y.toNat * d.toNat) s.shift
  have hsum : (z.toNat : ℚ) + ((y.toNat * d.toNat) >>> s.shift : Nat) = s.coeff.toNat := by
    exact_mod_cast (Step.fall_eq_ok.1 hz).2.2
  obtain ⟨hlow, hhigh⟩ := abs_le.1 hy
  have hprod_low : (v - e) * d.toNat / 2 ^ s.shift ≤ y.toNat * d.toNat / 2 ^ s.shift := by
    gcongr
    linarith
  have hprod_high : y.toNat * d.toNat / 2 ^ s.shift ≤ (v + e) * d.toNat / 2 ^ s.shift := by
    gcongr
    linarith
  rw [sub_mul, sub_div] at hprod_low
  rw [add_mul, add_div] at hprod_high
  push_cast at hle hge
  unfold Step.fallExact Step.drift
  rw [abs_le]
  constructor <;> linarith

end

/-! ## Chains -/

/-- **A chain that adds loses at most the drift**, and gains nothing. -/
theorem rising_drift {h : Horner} {d y : UInt64} (hy : h.rising d = .ok y) :
    h.risingExact d.toNat - h.drift d.toNat ≤ y.toNat ∧ y.toNat ≤ h.risingExact d.toNat := by
  obtain ⟨lead, steps⟩ := h
  -- over the steps, from any exact value and any error that the value so far has
  suffices key : ∀ v e : ℚ, v - e ≤ lead.toNat → lead.toNat ≤ v →
      steps.foldl (fun v s => s.riseExact d.toNat v) v -
        steps.foldl (fun e s => s.drift d.toNat e) e ≤ y.toNat ∧
      y.toNat ≤ steps.foldl (fun v s => s.riseExact d.toNat v) v from
    key lead.toNat 0 (by simp) le_rfl
  induction steps generalizing lead with
  | nil =>
    cases hy
    exact fun v e hlow hhigh => ⟨hlow, hhigh⟩
  | cons s steps ih =>
    intro v e hlow hhigh
    rw [rising_cons] at hy
    obtain ⟨z, hz, hy⟩ := bind_eq_ok.1 hy
    obtain ⟨hlow, hhigh⟩ := Step.rise_drift hz hlow hhigh
    exact ih z hy _ _ hlow hhigh

/-- **A chain that subtracts is no further than the drift from the exact one.** -/
theorem falling_drift {h : Horner} {d y : UInt64} (hy : h.falling d = .ok y) :
    |(y.toNat : ℚ) - h.fallingExact d.toNat| ≤ h.drift d.toNat := by
  obtain ⟨lead, steps⟩ := h
  suffices key : ∀ v e : ℚ, |(lead.toNat : ℚ) - v| ≤ e →
      |(y.toNat : ℚ) - steps.foldl (fun v s => s.fallExact d.toNat v) v| ≤
        steps.foldl (fun e s => s.drift d.toNat e) e from
    key lead.toNat 0 (by simp)
  induction steps generalizing lead with
  | nil =>
    cases hy
    exact fun v e h => h
  | cons s steps ih =>
    intro v e h
    rw [falling_cons] at hy
    obtain ⟨z, hz, hy⟩ := bind_eq_ok.1 hy
    exact ih z hy _ _ (Step.fall_drift hz h)

/-- **What the floors of a chain can do**, for any coefficients, shifts and arguments: a chain that
    adds is at most the drift below the exact value and never above it, one that subtracts is at
    most the drift away on either side. -/
theorem truncation (h : Horner) (d y : UInt64) :
    (h.rising d = .ok y →
      h.risingExact d.toNat - h.drift d.toNat ≤ y.toNat ∧ y.toNat ≤ h.risingExact d.toNat) ∧
    (h.falling d = .ok y → |(y.toNat : ℚ) - h.fallingExact d.toNat| ≤ h.drift d.toNat) :=
  ⟨rising_drift, falling_drift⟩

/-- One chain in both directions, with a part of a unit dropped at each step. -/
theorem truncation_two_steps :
    rising ⟨7, [⟨20, 1⟩, ⟨12, 2⟩]⟩ 3 = .ok 34 ∧ falling ⟨7, [⟨20, 1⟩, ⟨12, 2⟩]⟩ 3 = .ok 5 ∧
    (279 / 8 - 9 / 8 : ℚ) ≤ 34 ∧ (34 : ℚ) ≤ 279 / 8 ∧ |(5 : ℚ) - 39 / 8| ≤ 9 / 8 := by
  have hrising : rising ⟨7, [⟨20, 1⟩, ⟨12, 2⟩]⟩ 3 = .ok 34 := by decide
  have hfalling : falling ⟨7, [⟨20, 1⟩, ⟨12, 2⟩]⟩ 3 = .ok 5 := by decide
  have hexact : risingExact ⟨7, [⟨20, 1⟩, ⟨12, 2⟩]⟩ 3 = 279 / 8 := by decide +kernel
  have hexact' : fallingExact ⟨7, [⟨20, 1⟩, ⟨12, 2⟩]⟩ 3 = 39 / 8 := by decide +kernel
  have hdrift : drift ⟨7, [⟨20, 1⟩, ⟨12, 2⟩]⟩ 3 = 9 / 8 := by decide +kernel
  obtain ⟨hlow, hhigh⟩ := (truncation _ _ _).1 hrising
  have hnear := (truncation _ _ _).2 hfalling
  simp only [UInt64.reduceToNat, Nat.cast_ofNat, hexact, hexact', hdrift] at hlow hhigh hnear
  exact ⟨hrising, hfalling, hlow, hhigh, hnear⟩

/-! ## Larger arguments -/

theorem Step.drift_mono (s : Step) {d d' e e' : ℚ} (hd : d ≤ d') (he : e ≤ e') (h₀ : 0 ≤ d)
    (he₀ : 0 ≤ e) : 0 ≤ s.drift d e ∧ s.drift d e ≤ s.drift d' e' := by
  have hunit : 1 / (2 : ℚ) ^ s.shift ≤ 1 := by
    rw [div_le_one (by positivity)]
    exact one_le_pow₀ one_le_two
  unfold Step.drift
  constructor
  · have : 0 ≤ e * d / 2 ^ s.shift := by positivity
    linarith
  · have he₀' := he₀.trans he
    gcongr

/-- **The drift grows with the argument.** -/
theorem drift_mono (h : Horner) {d d' : ℚ} (hd : d ≤ d') (h₀ : 0 ≤ d) : h.drift d ≤ h.drift d' := by
  obtain ⟨lead, steps⟩ := h
  suffices key : ∀ e e' : ℚ, 0 ≤ e → e ≤ e' →
      steps.foldl (fun e s => s.drift d e) e ≤ steps.foldl (fun e s => s.drift d' e) e' from
    key 0 0 le_rfl le_rfl
  induction steps with
  | nil => exact fun e e' _ he => he
  | cons s steps ih =>
    intro e e' he₀ he
    obtain ⟨hpos, hle⟩ := s.drift_mono hd he h₀ he₀
    exact ih _ _ hpos hle

end PriceFeed.Horner
