/-
  PriceFeed — the shrinking exponential stays in range and shrinks.

  The decay chains are steady (`decayTable_steady`), so their values fall from `2 ^ 30` at
  zero to `2 ^ 29` at one, and all that their steps multiply falls as well.  With `i` before
  the point, the result is the chain's value less its low `i` bits, also past 63, where
  nothing is left; one more integer halves it, which is as far as a chain ever falls.

  * `decay_in_range`: no operation leaves its range;
  * `decay_antitone`: a larger argument never has a larger result.
-/
import PriceFeed.Exponential.Exact
import PriceFeed.Fixed.Parts
import PriceFeed.Proofs.Horner.Falling

namespace PriceFeed

namespace Precision

theorem decayTable_steady (p : Precision) : p.decayTable.Steady := by
  cases p <;> decide

theorem decayTable_zero (p : Precision) : p.decayTable.falling 0 = .ok 0x40000000 := by
  cases p <;> decide

theorem decayTable_one (p : Precision) : p.decayTable.falling 0x40000000 = .ok 0x20000000 := by
  cases p <;> decide

/-- The last value before one: what the floors of the steps leave is still above a half. -/
theorem decayTable_last (p : Precision) : p.decayTable.falling 0x3fffffff = .ok 0x20000001 := by
  cases p <;> decide

/-- The floors of the steps hide the first fraction. -/
theorem decayTable_first (p : Precision) : p.decayTable.falling 1 = .ok 0x40000000 := by
  cases p <;> decide

theorem decayTable_second (p : Precision) : p.decayTable.falling 2 = .ok 0x3fffffff := by
  cases p <;> decide

theorem decayTable_take_zero (p : Precision) :
    ∀ k < p.decayTable.order,
      ∃ y, (p.decayTable.take k).falling 0 = .ok y ∧ y.toNat < 2 ^ 34 := by
  cases p <;> decide

/-- What the steps of a decay chain multiply falls from less than `2 ^ 34`. -/
theorem decayTable_take_lt (p : Precision) {k : Nat} (hk : k < p.decayTable.order) {d : UInt64}
    (hd : d.toNat ≤ 2 ^ 30) :
    ∃ y, (p.decayTable.take k).falling d = .ok y ∧ y.toNat < 2 ^ 34 := by
  obtain ⟨top, y, htop, hy, hle⟩ :=
    (p.decayTable_steady.take k).exists_falling_le UInt64.zero_le hd
  obtain ⟨y₀, hy₀, hlt⟩ := p.decayTable_take_zero k hk
  obtain rfl : top = y₀ := eq_of_eq_ok htop hy₀
  exact ⟨y, hy, (UInt64.le_iff_toNat_le.1 hle).trans_lt hlt⟩

/-- Up to one, a decay chain's value is between a half and one. -/
theorem exists_decayTable_falling (p : Precision) {d : UInt64} (hd : d.toNat ≤ 2 ^ 30) :
    ∃ y, p.decayTable.falling d = .ok y ∧ 2 ^ 29 ≤ y.toNat ∧ y.toNat ≤ 2 ^ 30 := by
  obtain ⟨top, y, htop, hy, hle⟩ := p.decayTable_steady.exists_falling_le UInt64.zero_le hd
  obtain ⟨y', low, hy', hlow, hge⟩ := p.decayTable_steady.exists_falling_le
    (UInt64.le_iff_toNat_le.2 hd : d ≤ 0x40000000) le_rfl
  obtain rfl : y = y' := eq_of_eq_ok hy hy'
  obtain rfl : top = 0x40000000 := eq_of_eq_ok htop p.decayTable_zero
  obtain rfl : low = 0x20000000 := eq_of_eq_ok hlow p.decayTable_one
  exact ⟨y, hy, UInt64.le_iff_toNat_le.1 hge, UInt64.le_iff_toNat_le.1 hle⟩

/-- Below one, it is above a half. -/
theorem lt_of_decayTable_falling (p : Precision) {d y : UInt64} (hd : d.toNat < 2 ^ 30)
    (hy : p.decayTable.falling d = .ok y) : 2 ^ 29 < y.toNat := by
  have hle : d ≤ 0x3fffffff := UInt64.le_iff_toNat_le.2 (Nat.le_sub_one_of_lt hd)
  obtain ⟨y', last, hy', hlast, hge⟩ := p.decayTable_steady.exists_falling_le hle (by decide)
  obtain rfl : y = y' := eq_of_eq_ok hy hy'
  obtain rfl : last = 0x20000001 := eq_of_eq_ok hlast p.decayTable_last
  exact UInt64.le_iff_toNat_le.1 hge

/-- It is one at no fraction but the first two. -/
theorem decayTable_falling_eq_iff (p : Precision) {d y : UInt64} (hd : d.toNat ≤ 2 ^ 30)
    (hy : p.decayTable.falling d = .ok y) : y.toNat = 2 ^ 30 ↔ d.toNat ≤ 1 := by
  rcases Nat.lt_or_ge 1 d.toNat with hlt | hle
  · obtain ⟨second, y', hsecond, hy', hle⟩ := p.decayTable_steady.exists_falling_le
      (UInt64.le_iff_toNat_le.2 hlt : 2 ≤ d) hd
    obtain rfl : y = y' := eq_of_eq_ok hy hy'
    obtain rfl : second = 0x3fffffff := eq_of_eq_ok hsecond p.decayTable_second
    have hy_le : y.toNat ≤ 2 ^ 30 - 1 := UInt64.le_iff_toNat_le.1 hle
    omega
  · obtain ⟨y', first, hy', hfirst, hge⟩ := p.decayTable_steady.exists_falling_le
      (UInt64.le_iff_toNat_le.2 hle : d ≤ 1) (by decide)
    obtain rfl : y = y' := eq_of_eq_ok hy hy'
    obtain rfl : first = 0x40000000 := eq_of_eq_ok hfirst p.decayTable_first
    obtain ⟨y', hy', -, htop⟩ := p.exists_decayTable_falling hd
    obtain rfl : y = y' := eq_of_eq_ok hy hy'
    have hy_ge : 2 ^ 30 ≤ y.toNat := UInt64.le_iff_toNat_le.1 hge
    omega

end Precision

namespace Fixed

variable (p : Precision)

/-- The chain gives `y` for `x`, and the shrinking exponential `g` is what is left of it. -/
structure Decays (p : Precision) (x : Fixed) (y : UInt64) (g : Fixed) : Prop where
  falling : p.decayTable.falling x.fractionPart = .ok y
  le_falling : 2 ^ 29 ≤ y.toNat
  falling_le : y.toNat ≤ 2 ^ 30
  decayAt : x.decayAt p = .ok g
  decay_eq : g.raw.toNat = y.toNat / 2 ^ x.integerPart.toNat

theorem decayAt_of_lt {x : Fixed} (hi : x.integerPart > 63) : x.decayAt p = .ok zero :=
  if_pos hi

theorem exists_decays (x : Fixed) : ∃ y g, Decays p x y g := by
  obtain ⟨y, hy, hge, hle⟩ := p.exists_decayTable_falling x.fractionPart_lt.le
  by_cases hi : x.integerPart > 63
  · have hi' : 64 ≤ x.integerPart.toNat := UInt64.lt_iff_toNat_lt.1 hi
    have hpow : (2 : Nat) ^ 64 ≤ 2 ^ x.integerPart.toNat := Nat.pow_le_pow_right two_pos hi'
    refine ⟨y, zero, hy, hge, hle, decayAt_of_lt p hi, ?_⟩
    rw [Nat.div_eq_of_lt (by omega)]
    rfl
  · have hi' : x.integerPart.toNat ≤ 63 := UInt64.le_iff_toNat_le.1 (UInt64.not_lt.1 hi)
    obtain ⟨w, hw⟩ := Word.exists_toNat ((Nat.shiftRight_le y.toNat x.integerPart.toNat).trans_lt
      y.toNat_lt_size)
    have hshift : Word.shiftRight y x.integerPart.toNat = .ok w :=
      Word.shiftRight_eq_ok.2 ⟨by omega, hw⟩
    refine ⟨y, ⟨w⟩, hy, hge, hle, ?_, by rw [hw, Nat.shiftRight_eq_div_pow]⟩
    simp only [Fixed.decayAt, if_neg hi, bind_eq_ok, pure_eq_ok]
    exact ⟨y, hy, w, hshift, rfl⟩

/-! ## Other number systems -/

theorem decayWrapping_of_decayAt {x g : Fixed} (h : x.decayAt p = .ok g) :
    g = x.decayWrapping p := by
  by_cases hi : x.integerPart > 63
  · rw [decayWrapping, if_pos hi]
    exact eq_of_eq_ok h (decayAt_of_lt p hi)
  · simp only [decayAt, if_neg hi, bind_eq_ok, pure_eq_ok] at h
    obtain ⟨y, hy, w, hw, rfl⟩ := h
    rw [decayWrapping, if_neg hi, Word.eq_of_shiftRight hw, Horner.falling_eq_ok_wrapping hy,
      UInt64.ofNat_toNat]

variable {p}

/-- The word in integers is what the chain's value and the integer part give. -/
theorem Decays.floor_eq {x g : Fixed} {y : UInt64} (h : Decays p x y g) :
    x.decayFloor p = g.raw.toNat := by
  by_cases hi : x.integerPart > 63
  · obtain rfl : g = zero := eq_of_eq_ok h.decayAt (decayAt_of_lt p hi)
    rw [decayFloor, if_pos hi]
    rfl
  · rw [decayFloor, if_neg hi, ← Horner.falling_eq_ok_toInt h.falling, h.decay_eq]
    norm_cast

variable (p)

/-- **The shrinking exponential stays in range.**  Up to one, no chain of its table leaves the
    word or goes below zero, no value that it multiplies reaches `2 ^ 34`, and its result, which is
    that of integers without a bound, is between a half and one, and a half only at one.  So the
    exponential answers at every argument, and words that wrap around and integers without a bound
    give the same answer. -/
theorem decay_in_range :
    (∀ d : UInt64, d.toNat ≤ 2 ^ 30 →
      (∀ k < p.decayTable.order,
        ∃ y, (p.decayTable.take k).falling d = .ok y ∧ y.toNat < 2 ^ 34) ∧
      ∃ y, p.decayTable.falling d = .ok y ∧
        (y.toNat : Int) = p.decayTable.fallingFloor d.toNat ∧
        2 ^ 29 ≤ y.toNat ∧ y.toNat ≤ 2 ^ 30 ∧ (d.toNat < 2 ^ 30 → 2 ^ 29 < y.toNat)) ∧
    ∀ x : Fixed, ∃ g, x.decayAt p = .ok g ∧ g = x.decayWrapping p ∧
      (g.raw.toNat : Int) = x.decayFloor p := by
  constructor
  · intro d hd
    obtain ⟨y, hy, hge, hle⟩ := p.exists_decayTable_falling hd
    exact ⟨fun k hk => p.decayTable_take_lt hk hd, y, hy, Horner.falling_eq_ok_toInt hy, hge, hle,
      fun hd => p.lt_of_decayTable_falling hd hy⟩
  · intro x
    obtain ⟨y, g, h⟩ := exists_decays p x
    exact ⟨g, h.decayAt, decayWrapping_of_decayAt p h.decayAt, h.floor_eq.symm⟩

/-- With the most steps, at both ends of the last step down to a half. -/
theorem decay_in_range_end :
    (∃ y, (Precision.seven.decayTable.take 6).falling 0x40000000 = .ok y ∧ y.toNat < 2 ^ 34) ∧
    (∃ y, Precision.seven.decayTable.falling 0x40000000 = .ok y ∧ 2 ^ 29 ≤ y.toNat) ∧
    ∃ y, Precision.seven.decayTable.falling 0x3fffffff = .ok y ∧ 2 ^ 29 < y.toNat := by
  obtain ⟨htake, y, hy, -, hge, -⟩ := (decay_in_range .seven).1 0x40000000 (by decide)
  obtain ⟨-, y', hy', -, -, -, hlt⟩ := (decay_in_range .seven).1 0x3fffffff (by decide)
  exact ⟨htake 6 (by decide), ⟨y, hy, hge⟩, y', hy', hlt (by decide)⟩

/-! ## Larger arguments -/

/-- One more bit dropped makes up for any fall of the chain. -/
theorem div_two_pow_le {y₁ y₂ i₁ i₂ : Nat} (hge : 2 ^ 29 ≤ y₁) (hle : y₂ ≤ 2 ^ 30) (hi : i₁ < i₂) :
    y₂ / 2 ^ i₂ ≤ y₁ / 2 ^ i₁ :=
  calc y₂ / 2 ^ i₂ ≤ y₂ / 2 ^ (i₁ + 1) := Nat.div_le_div_left (Nat.pow_le_pow_right two_pos hi)
        (by positivity)
    _ = y₂ / 2 / 2 ^ i₁ := by rw [pow_succ', Nat.div_div_eq_div_mul]
    _ ≤ y₁ / 2 ^ i₁ := Nat.div_le_div_right (by omega)

variable {p}

theorem Decays.le {x₁ x₂ : Fixed} {y₁ y₂ : UInt64} {g₁ g₂ : Fixed} (h₁ : Decays p x₁ y₁ g₁)
    (h₂ : Decays p x₂ y₂ g₂) (hle : x₁ ≤ x₂) : g₂ ≤ g₁ := by
  have hraw : x₁.raw.toNat ≤ x₂.raw.toNat := UInt64.le_iff_toNat_le.1 hle
  show g₂.raw ≤ g₁.raw
  rw [UInt64.le_iff_toNat_le, h₁.decay_eq, h₂.decay_eq]
  rcases Nat.lt_trichotomy x₁.integerPart.toNat x₂.integerPart.toNat with hi | hi | hi
  · exact div_two_pow_le h₁.le_falling h₂.falling_le hi
  · -- the same integer part: the chain falls
    have hd : x₁.fractionPart ≤ x₂.fractionPart := by
      rw [toNat_raw x₁, toNat_raw x₂] at hraw
      exact UInt64.le_iff_toNat_le.2 (by omega)
    obtain ⟨z₁, z₂, hz₁, hz₂, hle⟩ :=
      p.decayTable_steady.exists_falling_le hd x₂.fractionPart_lt.le
    obtain rfl : y₁ = z₁ := eq_of_eq_ok h₁.falling hz₁
    obtain rfl : y₂ = z₂ := eq_of_eq_ok h₂.falling hz₂
    rw [hi]
    exact Nat.div_le_div_right (UInt64.le_iff_toNat_le.1 hle)
  · rw [toNat_integerPart, toNat_integerPart] at hi
    omega

variable (p)

/-- **A larger argument never has a larger shrinking exponential**, within a unit interval, across
    integers and where nothing is left; nor has a chain of its table, up to and at one. -/
theorem decay_antitone :
    (∀ x₁ x₂ : Fixed, x₁ ≤ x₂ →
      ∃ g₁ g₂, x₁.decayAt p = .ok g₁ ∧ x₂.decayAt p = .ok g₂ ∧ g₂ ≤ g₁) ∧
    ∀ d₁ d₂ : UInt64, d₁ ≤ d₂ → d₂.toNat ≤ 2 ^ 30 →
      ∃ y₁ y₂, p.decayTable.falling d₁ = .ok y₁ ∧ p.decayTable.falling d₂ = .ok y₂ ∧ y₂ ≤ y₁ := by
  constructor
  · intro x₁ x₂ hle
    obtain ⟨y₁, g₁, h₁⟩ := exists_decays p x₁
    obtain ⟨y₂, g₂, h₂⟩ := exists_decays p x₂
    exact ⟨g₁, g₂, h₁.decayAt, h₂.decayAt, h₁.le h₂ hle⟩
  · intro d₁ d₂ hle hd₂
    exact p.decayTable_steady.exists_falling_le hle hd₂

/-- Across the first integer, and at the end of the chain. -/
theorem decay_antitone_seam :
    (∃ g₁ g₂, (⟨0x3fffffff⟩ : Fixed).decayAt .seven = .ok g₁ ∧ one.decayAt .seven = .ok g₂ ∧
      g₂ ≤ g₁) ∧
    ∃ y, Precision.seven.decayTable.falling 0x3fffffff = .ok y ∧ 0x20000000 ≤ y := by
  refine ⟨(decay_antitone .seven).1 ⟨0x3fffffff⟩ one (by decide), ?_⟩
  obtain ⟨y₁, y₂, hy₁, hy₂, hle⟩ :=
    (decay_antitone .seven).2 0x3fffffff 0x40000000 (by decide) (by decide)
  obtain rfl : y₂ = 0x20000000 := eq_of_eq_ok hy₂ (Precision.decayTable_one .seven)
  exact ⟨y₁, hy₁, hle⟩

end Fixed

end PriceFeed
