/-
  PriceFeed — chains whose steps subtract.

  Such a step falls while the product that it takes away grows; the product grows only
  if the value before it, which falls itself, does not fall too fast.  So neighbouring
  arguments are looked at together: an `Envelope` bounds the value at both, and by how
  much it falls from the one to the other.  A step that fits an envelope
  (`Envelope.Fits`) answers at both arguments, and its values lie in the next envelope
  (`Step.exists_fall`).  A chain is steady if each step fits the envelope that the
  steps before it leave; that is a matter of its numbers alone, and decidable.

  * `exists_falling_le`: a steady chain answers at every argument up to `2 ^ 30`, and at
    a larger one with no larger a value;
  * `Steady.take`: so does each run of its steps, hence all that its steps multiply;
  * `falling_eq_ok_wrapping`: where it answers, words that wrap around agree with it.
-/
import PriceFeed.Proofs.Horner.Rising

namespace PriceFeed.Horner

/-- Bounds for a chain's value at two neighbouring arguments up to `2 ^ 30`. -/
structure Envelope where
  low : Nat
  high : Nat
  fall : Nat

namespace Envelope

/-- The values `y` and, at the next argument, `y'` lie in the envelope. -/
structure Holds (e : Envelope) (y y' : Nat) : Prop where
  low_le : e.low ≤ y'
  le : y' ≤ y
  le_high : y ≤ e.high
  le_add : y ≤ y' + e.fall

/-- A step stays in range in the envelope, and its product does not fall. -/
def Fits (e : Envelope) (s : Step) : Prop :=
  s.shift < 64 ∧ e.high * 2 ^ 30 < UInt64.size ∧ 2 ^ 30 * e.fall ≤ e.low ∧
    e.high * 2 ^ 30 / 2 ^ s.shift ≤ s.coeff.toNat

instance (e : Envelope) (s : Step) : Decidable (e.Fits s) :=
  inferInstanceAs (Decidable (_ ∧ _))

/-- The envelope after a step. -/
def next (e : Envelope) (s : Step) : Envelope where
  low := s.coeff.toNat - e.high * 2 ^ 30 / 2 ^ s.shift
  high := s.coeff.toNat
  fall := e.high / 2 ^ s.shift + 1

end Envelope

/-- Each step fits the envelope that the steps before it leave. -/
def SteadyFrom : Envelope → List Step → Prop
  | _, [] => True
  | e, s :: steps => e.Fits s ∧ SteadyFrom (e.next s) steps

instance decidableSteadyFrom : (e : Envelope) → (steps : List Step) → Decidable (SteadyFrom e steps)
  | _, [] => .isTrue trivial
  | e, s :: steps =>
    have := decidableSteadyFrom (e.next s) steps
    inferInstanceAs (Decidable (_ ∧ _))

/-- The chain is steady from its leading coefficient, which does not fall at all. -/
def Steady (h : Horner) : Prop :=
  SteadyFrom ⟨h.lead.toNat, h.lead.toNat, 0⟩ h.steps

instance (h : Horner) : Decidable h.Steady :=
  inferInstanceAs (Decidable (SteadyFrom _ _))

theorem SteadyFrom.take {e : Envelope} {steps : List Step} (h : SteadyFrom e steps) (k : Nat) :
    SteadyFrom e (steps.take k) := by
  induction k generalizing e steps with
  | zero => exact trivial
  | succ k ih =>
    cases steps with
    | nil => exact trivial
    | cons s steps => exact ⟨h.1, ih h.2⟩

theorem Steady.take {h : Horner} (hsteady : h.Steady) (k : Nat) : (h.take k).Steady :=
  SteadyFrom.take hsteady k

theorem falling_cons (lead : UInt64) (s : Step) (steps : List Step) (d : UInt64) :
    falling ⟨lead, s :: steps⟩ d = s.fall d lead >>= fun y => falling ⟨y, steps⟩ d :=
  List.foldlM_cons ..

/-! ## Words that wrap around -/

theorem Step.eq_of_fall {s : Step} {d y z : UInt64} (h : s.fall d y = .ok z) :
    z = s.fallWrapping d y := by
  obtain ⟨q, hq, hz⟩ := bind_eq_ok.1 h
  rw [Word.eq_of_sub hz, Step.eq_of_scaled hq]
  rfl

theorem falling_eq_ok_wrapping {h : Horner} {d y : UInt64} (hy : h.falling d = .ok y) :
    y = h.fallingWrapping d :=
  run_eq_ok id Step.eq_of_fall hy

/-! ## Neighbouring arguments -/

theorem Step.exists_fall_eq {s : Step} {d y : UInt64} (hp : y.toNat * d.toNat < UInt64.size)
    (hs : s.shift < 64) (hle : y.toNat * d.toNat / 2 ^ s.shift ≤ s.coeff.toNat) :
    ∃ z, s.fall d y = .ok z ∧ z.toNat = s.coeff.toNat - y.toNat * d.toNat / 2 ^ s.shift := by
  obtain ⟨z, hz⟩ := Word.exists_toNat ((Nat.sub_le _ _).trans_lt s.coeff.toNat_lt_size)
  refine ⟨z, Step.fall_eq_ok.2 ⟨hp, hs, ?_⟩, hz⟩
  rw [hz, Nat.shiftRight_eq_div_pow, Nat.sub_add_cancel hle]

/-- A larger product, by at most `u`, has a larger quotient, by at most `u / m + 1`. -/
theorem div_le_of_le_add {a b u m : Nat} (hm : 0 < m) (h : b ≤ a + u) :
    b / m ≤ a / m + (u / m + 1) := by
  rw [← Nat.lt_succ_iff, Nat.div_lt_iff_lt_mul hm]
  have ha := Nat.lt_mul_div_succ a hm
  have hu := Nat.lt_mul_div_succ u hm
  calc b ≤ a + u := h
    _ < m * (a / m + 1) + m * (u / m + 1) := Nat.add_lt_add ha hu
    _ = (a / m + (u / m + 1)).succ * m := by rw [Nat.succ_eq_add_one]; ring

namespace Envelope.Holds
variable {e : Envelope} {y y' d : Nat} (h : e.Holds y y')
include h

/-- The product does not fall, as the value before it does not fall too fast. -/
theorem mul_le (hd : d ≤ 2 ^ 30) (hslow : 2 ^ 30 * e.fall ≤ e.low) : y * d ≤ y' * (d + 1) :=
  calc y * d ≤ (y' + e.fall) * d := Nat.mul_le_mul_right _ h.le_add
    _ = y' * d + d * e.fall := by rw [Nat.add_mul, Nat.mul_comm e.fall]
    _ ≤ y' * d + 2 ^ 30 * e.fall := Nat.add_le_add_left (Nat.mul_le_mul_right _ hd) _
    _ ≤ y' * d + y' := Nat.add_le_add_left (hslow.trans h.low_le) _
    _ = y' * (d + 1) := (Nat.mul_succ _ _).symm

theorem mul_succ_le : y' * (d + 1) ≤ y * d + e.high :=
  calc y' * (d + 1) ≤ y * (d + 1) := Nat.mul_le_mul_right _ h.le
    _ = y * d + y := Nat.mul_succ _ _
    _ ≤ y * d + e.high := Nat.add_le_add_left h.le_high _

theorem mul_succ_le_high (hd : d < 2 ^ 30) : y' * (d + 1) ≤ e.high * 2 ^ 30 :=
  Nat.mul_le_mul (h.le.trans h.le_high) hd

end Envelope.Holds

/-- **A step that fits an envelope** answers at both arguments, and the values lie in the next
    envelope. -/
theorem Step.exists_fall {e : Envelope} {s : Step} {d y y' : UInt64} (hd : d.toNat < 2 ^ 30)
    (hfits : e.Fits s) (h : e.Holds y.toNat y'.toNat) :
    ∃ z z', s.fall d y = .ok z ∧ s.fall (d + 1) y' = .ok z' ∧
      (e.next s).Holds z.toNat z'.toNat := by
  obtain ⟨hs, hp, hslow, hcoeff⟩ := hfits
  -- what the step takes away: no less at the next argument, not much more, and in range
  have hgrow := h.mul_le hd.le hslow
  have hmax := h.mul_succ_le_high hd
  have hpos : 0 < 2 ^ s.shift := by positivity
  have hquot := Nat.div_le_div_right (c := 2 ^ s.shift) hgrow
  have hquot_succ := div_le_of_le_add hpos (h.mul_succ_le (d := d.toNat))
  have hquot_max := Nat.div_le_div_right (c := 2 ^ s.shift) hmax
  have hsucc := Word.toNat_add_one (show d.toNat + 1 < 2 ^ 64 by omega)
  rw [← hsucc] at hgrow hmax hquot hquot_succ hquot_max
  obtain ⟨z, hz, hz_eq⟩ := Step.exists_fall_eq ((hgrow.trans hmax).trans_lt hp) hs (by omega)
  obtain ⟨z', hz', hz'_eq⟩ := Step.exists_fall_eq (hmax.trans_lt hp) hs (hquot_max.trans hcoeff)
  refine ⟨z, z', hz, hz', ?_⟩
  constructor
  · show s.coeff.toNat - e.high * 2 ^ 30 / 2 ^ s.shift ≤ z'.toNat
    omega
  · omega
  · exact hz_eq.trans_le (Nat.sub_le _ _)
  · show z.toNat ≤ z'.toNat + (e.high / 2 ^ s.shift + 1)
    omega

theorem exists_falling_succ {e : Envelope} {steps : List Step} {lead lead' d : UInt64}
    (hd : d.toNat < 2 ^ 30) (hsteady : SteadyFrom e steps) (h : e.Holds lead.toNat lead'.toNat) :
    ∃ y y', falling ⟨lead, steps⟩ d = .ok y ∧ falling ⟨lead', steps⟩ (d + 1) = .ok y' ∧ y' ≤ y := by
  induction steps generalizing e lead lead' with
  | nil => exact ⟨lead, lead', rfl, rfl, UInt64.le_iff_toNat_le.2 h.le⟩
  | cons s steps ih =>
    obtain ⟨hfits, hsteady⟩ := hsteady
    obtain ⟨z, z', hz, hz', hnext⟩ := Step.exists_fall hd hfits h
    obtain ⟨y, y', hy, hy', hle⟩ := ih hsteady hnext
    refine ⟨y, y', ?_, ?_, hle⟩
    · rw [falling_cons]; exact bind_eq_ok.2 ⟨z, hz, hy⟩
    · rw [falling_cons]; exact bind_eq_ok.2 ⟨z', hz', hy'⟩

section
variable {h : Horner} (hsteady : h.Steady) {d d' : UInt64}
include hsteady

theorem Steady.exists_falling_succ (hd : d.toNat < 2 ^ 30) :
    ∃ y y', h.falling d = .ok y ∧ h.falling (d + 1) = .ok y' ∧ y' ≤ y :=
  Horner.exists_falling_succ hd hsteady ⟨le_rfl, le_rfl, le_rfl, le_rfl⟩

theorem Steady.exists_falling (hd : d.toNat ≤ 2 ^ 30) : ∃ y, h.falling d = .ok y := by
  rcases Nat.lt_or_eq_of_le hd with hd | hd
  · obtain ⟨y, -, hy, -⟩ := hsteady.exists_falling_succ hd
    exact ⟨y, hy⟩
  · obtain ⟨-, y, -, hy, -⟩ := hsteady.exists_falling_succ (d := 0x3fffffff) (by decide)
    obtain rfl : d = 0x3fffffff + 1 := UInt64.toNat_inj.1 hd
    exact ⟨y, hy⟩

/-- **A steady chain falls.**  It answers at every argument up to `2 ^ 30`, and at a larger one
    with no larger a value. -/
theorem Steady.exists_falling_le (hle : d ≤ d') (hd' : d'.toNat ≤ 2 ^ 30) :
    ∃ y y', h.falling d = .ok y ∧ h.falling d' = .ok y' ∧ y' ≤ y := by
  rw [UInt64.le_iff_toNat_le] at hle
  induction hn : d'.toNat - d.toNat generalizing d' with
  | zero =>
    obtain rfl : d = d' := UInt64.toNat_inj.1 (by omega)
    obtain ⟨y, hy⟩ := hsteady.exists_falling hd'
    exact ⟨y, y, hy, hy, UInt64.le_refl y⟩
  | succ n ih =>
    -- one step back from `d'`
    have hone : (1 : UInt64) ≤ d' := UInt64.le_iff_toNat_le.2 (show 1 ≤ d'.toNat by omega)
    have hpred : (d' - 1).toNat = d'.toNat - 1 := UInt64.toNat_sub_of_le _ _ hone
    obtain ⟨y, y₁, hy, hy₁, hle₁⟩ := @ih (d' - 1) (by omega) (by omega) (by omega)
    obtain ⟨y₂, y', hy₂, hy', hle'⟩ := hsteady.exists_falling_succ (d := d' - 1) (by omega)
    rw [UInt64.sub_add_cancel] at hy'
    obtain rfl : y₁ = y₂ := eq_of_eq_ok hy₁ hy₂
    exact ⟨y, y', hy, hy', UInt64.le_trans hle' hle₁⟩

end

end PriceFeed.Horner
