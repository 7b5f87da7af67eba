/-
  PriceFeed — chains whose steps add.

  Each step grows with the argument and with the value before it, and stays in range
  wherever a larger step does (`Step.exists_rise_le`).  So a chain that answers at some
  argument answers at every smaller one, with no larger a value (`exists_rising_le`):
  to know that a chain stays in range, it is enough to look at its largest argument
  (`rising_checked_at_top`).

  Where 64-bit arithmetic does not leave the word, words that wrap around agree with it
  (`rising_eq_ok_wrapping`).
-/
import PriceFeed.Horner.Exact
import PriceFeed.Proofs.Word

namespace PriceFeed

namespace Horner

theorem Step.eq_of_scaled {s : Step} {d y z : UInt64} (h : s.scaled d y = .ok z) :
    z = (y * d) >>> UInt64.ofNat s.shift := by
  obtain ⟨p, hp, hz⟩ := bind_eq_ok.1 h
  rw [Word.eq_of_shiftRight hz, Word.eq_of_mul hp]

theorem Step.eq_of_rise {s : Step} {d y z : UInt64} (h : s.rise d y = .ok z) :
    z = s.riseWrapping d y := by
  obtain ⟨q, hq, hz⟩ := bind_eq_ok.1 h
  rw [Word.eq_of_add hz, Step.eq_of_scaled hq]
  rfl

/-! ## Runs of steps -/

/-- The chain that stops after `k` steps; its value is the one that the next step multiplies. -/
def take (h : Horner) (k : Nat) : Horner :=
  ⟨h.lead, h.steps.take k⟩

theorem rising_cons (lead : UInt64) (s : Step) (steps : List Step) (d : UInt64) :
    rising ⟨lead, s :: steps⟩ d = s.rise d lead >>= fun y => rising ⟨y, steps⟩ d :=
  List.foldlM_cons ..

theorem rising_concat (lead : UInt64) (steps : List Step) (s : Step) (d : UInt64) :
    rising ⟨lead, steps ++ [s]⟩ d = rising ⟨lead, steps⟩ d >>= s.rise d := by
  unfold rising
  rw [List.foldlM_append]
  simp only [List.foldlM_cons, List.foldlM_nil, bind_pure]

theorem rising_eq_ok_wrapping {h : Horner} {d y : UInt64} (hy : h.rising d = .ok y) :
    y = h.risingWrapping d :=
  run_eq_ok id Step.eq_of_rise hy

/-! ## Smaller arguments -/

theorem Step.exists_rise_le {s : Step} {d d' y y' z : UInt64} (hd : d' ≤ d) (hy : y' ≤ y)
    (hz : s.rise d y = .ok z) : ∃ z', s.rise d' y' = .ok z' ∧ z' ≤ z := by
  obtain ⟨hp, hs, hz⟩ := Step.rise_eq_ok.1 hz
  rw [UInt64.le_iff_toNat_le] at hd hy
  have hprod : y'.toNat * d'.toNat ≤ y.toNat * d.toNat := Nat.mul_le_mul hy hd
  have hshift : (y'.toNat * d'.toNat) >>> s.shift ≤ (y.toNat * d.toNat) >>> s.shift := by
    rw [Nat.shiftRight_eq_div_pow, Nat.shiftRight_eq_div_pow]
    exact Nat.div_le_div_right hprod
  obtain ⟨z', hz'⟩ := Word.exists_toNat
    (show s.coeff.toNat + (y'.toNat * d'.toNat) >>> s.shift < UInt64.size by
      have := z.toNat_lt_size
      omega)
  refine ⟨z', Step.rise_eq_ok.2 ⟨hprod.trans_lt hp, hs, hz'⟩, ?_⟩
  rw [UInt64.le_iff_toNat_le]
  omega

/-- **A chain that answers at an argument answers at every smaller one**, and with no
    larger a value. -/
theorem exists_rising_le {h : Horner} {d d' y : UInt64} (hd : d' ≤ d) (hy : h.rising d = .ok y) :
    ∃ y', h.rising d' = .ok y' ∧ y' ≤ y := by
  obtain ⟨lead, steps⟩ := h
  -- over the steps, two chains at once: the one at `d'` has no larger a value so far
  suffices key : ∀ lead' ≤ lead, ∃ y', rising ⟨lead', steps⟩ d' = .ok y' ∧ y' ≤ y from
    key lead (UInt64.le_refl lead)
  induction steps generalizing lead with
  | nil =>
    cases hy
    exact fun lead' hl => ⟨lead', rfl, hl⟩
  | cons s steps ih =>
    intro lead' hl
    rw [rising_cons] at hy
    obtain ⟨z, hz, hy⟩ := bind_eq_ok.1 hy
    obtain ⟨z', hz', hle⟩ := Step.exists_rise_le hd hl hz
    obtain ⟨y', hy', hle'⟩ := ih z hy z' hle
    refine ⟨y', ?_, hle'⟩
    rw [rising_cons]
    exact bind_eq_ok.2 ⟨z', hz', hy'⟩

/-- **The largest argument decides.**  Values do not fall when the argument grows, and a chain
    answers at all arguments up to a largest one exactly if it answers at that one. -/
theorem rising_checked_at_top (h : Horner) :
    (∀ d' d y, d' ≤ d → h.rising d = .ok y → ∃ y', h.rising d' = .ok y' ∧ y' ≤ y) ∧
    ∀ top, (∃ y, h.rising top = .ok y) ↔ ∀ d ≤ top, ∃ y, h.rising d = .ok y := by
  refine ⟨fun d' d y hd hy => exists_rising_le hd hy, fun top => ⟨?_, ?_⟩⟩
  · rintro ⟨y, hy⟩ d hd
    obtain ⟨y', hy', -⟩ := exists_rising_le hd hy
    exact ⟨y', hy'⟩
  · exact fun hall => hall top (UInt64.le_refl top)

/-- A product and a sum that are as large as a word can hold. -/
theorem rising_checked_at_top_full :
    (∃ y, rising ⟨0x100000000, [⟨0xffffffff00000000, 32⟩]⟩ 0xfffffffe = .ok y ∧
      y ≤ 0xffffffffffffffff) ∧
    ∃ y, rising ⟨0x100000000, [⟨0xffffffff00000000, 32⟩]⟩ 12 = .ok y := by
  have htop : rising ⟨0x100000000, [⟨0xffffffff00000000, 32⟩]⟩ 0xffffffff =
      .ok 0xffffffffffffffff := by decide
  obtain ⟨hmono, hall⟩ := rising_checked_at_top ⟨0x100000000, [⟨0xffffffff00000000, 32⟩]⟩
  exact ⟨hmono _ _ _ (by decide) htop, (hall 0xffffffff).1 ⟨_, htop⟩ 12 (by decide)⟩

end Horner

end PriceFeed
