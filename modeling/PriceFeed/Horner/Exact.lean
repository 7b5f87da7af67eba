/-
  PriceFeed — Horner chains in other number systems.

  The same recurrence as `Horner.rising` and `Horner.falling`

  * in words that wrap around (`risingWrapping`, `fallingWrapping`);
  * in integers without a bound, each step rounding down (`risingFloor`,
    `fallingFloor`);
  * in rationals without rounding (`risingExact`, `fallingExact`), and `drift`,
    by how much the floors of all steps together can move the value.

  Where 64-bit arithmetic does not leave the word, it agrees with the integers
  (`rising_eq_ok_toInt`, `falling_eq_ok_toInt`), because each step does (`run_eq_ok`).
-/
import Mathlib
import PriceFeed.Horner.Basic

namespace PriceFeed.Horner

/-- If a step agrees with one in another number system, into which `c` takes words, wherever it
    answers, then so does every run of steps. -/
theorem run_eq_ok {α : Type} (c : UInt64 → α) {f : UInt64 → Step → Except RangeFault UInt64}
    {g : α → Step → α} (hstep : ∀ {y s z}, f y s = .ok z → c z = g (c y) s) {steps : List Step}
    {lead y : UInt64} (hy : steps.foldlM f lead = .ok y) : c y = steps.foldl g (c lead) := by
  induction steps generalizing lead with
  | nil => cases hy; rfl
  | cons s steps ih =>
    rw [List.foldlM_cons] at hy
    cases hz : f lead s with
    | error e => rw [hz] at hy; exact nomatch hy
    | ok z =>
      rw [hz] at hy
      rw [List.foldl_cons, ← hstep hz]
      exact ih hy

/-! ## Words that wrap around -/

def Step.riseWrapping (s : Step) (d y : UInt64) : UInt64 :=
  s.coeff + ((y * d) >>> UInt64.ofNat s.shift)

def Step.fallWrapping (s : Step) (d y : UInt64) : UInt64 :=
  s.coeff - ((y * d) >>> UInt64.ofNat s.shift)

def risingWrapping (h : Horner) (d : UInt64) : UInt64 :=
  h.steps.foldl (fun y s => s.riseWrapping d y) h.lead

def fallingWrapping (h : Horner) (d : UInt64) : UInt64 :=
  h.steps.foldl (fun y s => s.fallWrapping d y) h.lead

/-! ## Integers -/

def Step.riseFloor (s : Step) (d y : Int) : Int :=
  s.coeff.toNat + y * d / 2 ^ s.shift

def Step.fallFloor (s : Step) (d y : Int) : Int :=
  s.coeff.toNat - y * d / 2 ^ s.shift

def risingFloor (h : Horner) (d : Int) : Int :=
  h.steps.foldl (fun y s => s.riseFloor d y) h.lead.toNat

def fallingFloor (h : Horner) (d : Int) : Int :=
  h.steps.foldl (fun y s => s.fallFloor d y) h.lead.toNat

theorem Step.rise_eq_ok_toInt {s : Step} {d y z : UInt64} (h : s.rise d y = .ok z) :
    (z.toNat : Int) = s.riseFloor d.toNat y.toNat := by
  rw [(Step.rise_eq_ok.1 h).2.2, Nat.shiftRight_eq_div_pow]
  unfold Step.riseFloor
  norm_cast

theorem Step.fall_eq_ok_toInt {s : Step} {d y z : UInt64} (h : s.fall d y = .ok z) :
    (z.toNat : Int) = s.fallFloor d.toNat y.toNat := by
  unfold Step.fallFloor
  rw [← (Step.fall_eq_ok.1 h).2.2, Nat.shiftRight_eq_div_pow]
  push_cast
  ring

theorem rising_eq_ok_toInt {h : Horner} {d y : UInt64} (hy : h.rising d = .ok y) :
    (y.toNat : Int) = h.risingFloor d.toNat :=
  run_eq_ok (fun w => (w.toNat : Int)) Step.rise_eq_ok_toInt hy

theorem falling_eq_ok_toInt {h : Horner} {d y : UInt64} (hy : h.falling d = .ok y) :
    (y.toNat : Int) = h.fallingFloor d.toNat :=
  run_eq_ok (fun w => (w.toNat : Int)) Step.fall_eq_ok_toInt hy

/-! ## Rationals -/

def Step.riseExact (s : Step) (d y : ℚ) : ℚ :=
  (s.coeff.toNat : ℚ) + y * d / 2 ^ s.shift

def Step.fallExact (s : Step) (d y : ℚ) : ℚ :=
  (s.coeff.toNat : ℚ) - y * d / 2 ^ s.shift

def risingExact (h : Horner) (d : ℚ) : ℚ :=
  h.steps.foldl (fun y s => s.riseExact d y) (h.lead.toNat : ℚ)

def fallingExact (h : Horner) (d : ℚ) : ℚ :=
  h.steps.foldl (fun y s => s.fallExact d y) (h.lead.toNat : ℚ)

/-- A bound for what the floors of a chain can add up to: a step passes on the
    error so far, scaled as its product is, and adds less than one unit. -/
def drift (h : Horner) (d : ℚ) : ℚ :=
  h.steps.foldl (fun e s => e * d / 2 ^ s.shift + (1 - 1 / 2 ^ s.shift)) 0

end PriceFeed.Horner
