/-
  PriceFeed — Horner chains (`horner_sum` and `horner_difference`).

  A chain is a leading coefficient and a list of steps.  A step multiplies the
  value so far by the argument `d`, drops the low `shift` bits of the product,
  and adds the rest to its coefficient (`rising`) or takes it from it
  (`falling`).  All of it is 64-bit arithmetic that reports leaving the word.
-/
import PriceFeed.Word

namespace PriceFeed

/-- One step of a chain: `y ↦ coeff ± ((y · d) >> shift)`. -/
structure Horner.Step where
  coeff : UInt64
  shift : Nat
  deriving DecidableEq

/-- A leading coefficient and the steps that follow it, in order. -/
structure Horner where
  lead : UInt64
  steps : List Horner.Step
  deriving DecidableEq

namespace Horner

/-- The number of multiplications of one evaluation. -/
def order (h : Horner) : Nat :=
  h.steps.length

/-- What a step adds or takes away: the product with its low bits dropped. -/
def Step.scaled (s : Step) (d y : UInt64) : Except RangeFault UInt64 := do
  let product ← Word.mul y d
  Word.shiftRight product s.shift

/-- A step that adds: `coeff + ((y · d) >> shift)`. -/
def Step.rise (s : Step) (d y : UInt64) : Except RangeFault UInt64 := do
  Word.add s.coeff (← s.scaled d y)

/-- A step that subtracts: `coeff - ((y · d) >> shift)`. -/
def Step.fall (s : Step) (d y : UInt64) : Except RangeFault UInt64 := do
  Word.sub s.coeff (← s.scaled d y)

/-- The value of a chain whose steps add. -/
def rising (h : Horner) (d : UInt64) : Except RangeFault UInt64 :=
  h.steps.foldlM (fun y s => s.rise d y) h.lead

/-- The value of a chain whose steps subtract. -/
def falling (h : Horner) (d : UInt64) : Except RangeFault UInt64 :=
  h.steps.foldlM (fun y s => s.fall d y) h.lead

theorem Step.scaled_eq_ok {s : Step} {d y z : UInt64} :
    s.scaled d y = .ok z ↔
      y.toNat * d.toNat < UInt64.size ∧ s.shift < 64 ∧
        z.toNat = (y.toNat * d.toNat) >>> s.shift := by
  unfold Step.scaled
  cases hp : Word.mul y d with
  | error e =>
    have hlt : ¬ y.toNat * d.toNat < UInt64.size := by
      intro h
      rw [Word.mul, if_pos h] at hp
      exact nomatch hp
    exact ⟨fun h => (nomatch h), fun h => absurd h.1 hlt⟩
  | ok p =>
    have hp := Word.mul_eq_ok.1 hp
    have hlt := p.toNat_lt_size
    show Word.shiftRight p s.shift = .ok z ↔ _
    rw [Word.shiftRight_eq_ok, hp]
    exact ⟨fun h => ⟨by omega, h⟩, fun h => h.2⟩

theorem Step.exists_scaled {s : Step} {d y : UInt64} (hp : y.toNat * d.toNat < UInt64.size)
    (hs : s.shift < 64) : ∃ q, s.scaled d y = .ok q := by
  refine ⟨UInt64.ofNat ((y.toNat * d.toNat) >>> s.shift), Step.scaled_eq_ok.2 ⟨hp, hs, ?_⟩⟩
  exact UInt64.toNat_ofNat_of_lt (Nat.lt_of_le_of_lt (Nat.shiftRight_le _ _) hp)

/-- A step that adds answers exactly if the product, the shift amount and the
    sum are in range, and then with the sum. -/
theorem Step.rise_eq_ok {s : Step} {d y z : UInt64} :
    s.rise d y = .ok z ↔
      y.toNat * d.toNat < UInt64.size ∧ s.shift < 64 ∧
        z.toNat = s.coeff.toNat + (y.toNat * d.toNat) >>> s.shift := by
  unfold Step.rise
  cases hq : s.scaled d y with
  | error e =>
    refine ⟨fun h => (nomatch h), fun h => ?_⟩
    obtain ⟨q, hq'⟩ := Step.exists_scaled h.1 h.2.1
    rw [hq] at hq'
    exact nomatch hq'
  | ok q =>
    have hq := Step.scaled_eq_ok.1 hq
    show Word.add s.coeff q = .ok z ↔ _
    rw [Word.add_eq_ok, hq.2.2]
    exact ⟨fun h => ⟨hq.1, hq.2.1, h⟩, fun h => h.2.2⟩

/-- A step that subtracts answers exactly if the product, the shift amount and
    the difference are in range, and then with the difference. -/
theorem Step.fall_eq_ok {s : Step} {d y z : UInt64} :
    s.fall d y = .ok z ↔
      y.toNat * d.toNat < UInt64.size ∧ s.shift < 64 ∧
        z.toNat + (y.toNat * d.toNat) >>> s.shift = s.coeff.toNat := by
  unfold Step.fall
  cases hq : s.scaled d y with
  | error e =>
    refine ⟨fun h => (nomatch h), fun h => ?_⟩
    obtain ⟨q, hq'⟩ := Step.exists_scaled h.1 h.2.1
    rw [hq] at hq'
    exact nomatch hq'
  | ok q =>
    have hq := Step.scaled_eq_ok.1 hq
    show Word.sub s.coeff q = .ok z ↔ _
    rw [Word.sub_eq_ok, hq.2.2]
    exact ⟨fun h => ⟨hq.1, hq.2.1, h⟩, fun h => h.2.2⟩

end Horner

end PriceFeed
