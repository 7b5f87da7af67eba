/-
  PriceFeed — the growing exponentials stay in range and grow.

  Up to the limit, both exponentials of an argument are what `recompose` makes of its
  chain's value and its integer part (`Fixed.Grows`).  For a larger integer part that is
  more, whatever the fractions are; for the same one, a larger fraction has a chain value
  that is larger by at least `2 ^ 33`, which from `i = 1` on the rounding does not hide.

  * `growth_in_range`: no operation leaves its range;
  * `growth_monotone`: a larger argument never has a smaller result, and from one on
    it has a larger one, up to the first argument that has the greatest value.
-/
import PriceFeed.Exponential.Exact
import PriceFeed.Fixed.Parts
import PriceFeed.Proofs.Exponential.GrowthTable
import PriceFeed.Proofs.Exponential.Recompose

namespace PriceFeed.Fixed

variable (p : Precision) {x : Fixed}

theorem le_growthLimit_iff : x.raw ≤ growthLimit ↔ x.raw.toNat ≤ 34 * 2 ^ 30 - 1 :=
  UInt64.le_iff_toNat_le

/-- The first argument past the limit is 34. -/
theorem growthLimit_lt_iff : growthLimit < x.raw ↔ 34 * 2 ^ 30 ≤ x.raw.toNat := by
  rw [← UInt64.not_le, le_growthLimit_iff]
  omega

theorem integerPart_lt (hx : x.raw ≤ growthLimit) : x.integerPart.toNat < 34 := by
  have hle : x.raw.toNat ≤ 34 * 2 ^ 30 - 1 := UInt64.le_iff_toNat_le.1 hx
  rw [toNat_integerPart]
  omega

theorem growthAt_of_lt (hx : growthLimit < x.raw) :
    x.growthAt p = .ok greatest ∧ x.powerAt p = .ok greatest :=
  ⟨if_pos hx, if_pos hx⟩

/-- The chain gives `y` for `x`, and the growing exponentials `g` and `e` come from it. -/
structure Grows (p : Precision) (x : Fixed) (y : UInt64) (g e : Fixed) : Prop where
  rising : p.growthTable.rising x.fractionPart = .ok y
  rising_le : y.toNat ≤ 2 ^ 64 - 2 ^ 34
  growthAt : x.growthAt p = .ok g
  powerAt : x.powerAt p = .ok e
  growth_add : g.raw.toNat + 2 ^ 30 = e.raw.toNat
  power_eq : e.raw.toNat = recompose y.toNat x.integerPart.toNat

/-- Up to the limit, there are such exponentials. -/
theorem exists_grows (hx : x.raw ≤ growthLimit) : ∃ y g e, Grows p x y g e := by
  have hlimit : ¬ growthLimit < x.raw := UInt64.not_lt.2 hx
  obtain ⟨y, hy, hle⟩ := p.growthTable_rising_le x.fractionPart_lt
  obtain ⟨rounded, whole, power, growth, hrounded, hwhole, -, hadd, hpower, hsub, hback⟩ :=
    exists_recompose (integerPart_lt hx) hle
  have hg : x.growthAt p = .ok ⟨growth⟩ := by
    simp [Fixed.growthAt, hlimit, hy, hrounded, hwhole, hadd, hsub]
  have he : x.powerAt p = .ok ⟨power⟩ := by
    simp [Fixed.powerAt, hlimit, hg, hback]
  exact ⟨y, ⟨growth⟩, ⟨power⟩, hy, hle, hg, he, (Word.add_eq_ok.1 hback).symm, hpower⟩

/-! ## Other number systems -/

theorem growthWrapping_of_growthAt {g : Fixed} (h : x.growthAt p = .ok g) :
    g = x.growthWrapping p := by
  by_cases hx : growthLimit < x.raw
  · rw [growthWrapping, if_pos hx]
    exact eq_of_eq_ok h (growthAt_of_lt p hx).1
  have hi := integerPart_lt (UInt64.not_lt.1 hx)
  simp only [growthAt, if_neg hx, Word.shiftRightRounded, bind_eq_ok, pure_eq_ok] at h
  obtain ⟨y, hy, rounded, ⟨bias, hbias, sum, hsum, hrounded⟩, whole, hwhole, total, htotal,
    growth, hgrowth, rfl⟩ := h
  -- the shift amounts are the same words, as none of the subtractions goes below zero
  have hs : UInt64.ofNat (34 - x.integerPart.toNat) = 34 - x.integerPart := by
    rw [UInt64.ofNat_sub hi.le, UInt64.ofNat_toNat]
    rfl
  have hless : UInt64.ofNat (34 - x.integerPart.toNat - 1) = 34 - x.integerPart - 1 := by
    rw [UInt64.ofNat_sub (by omega), hs]
    rfl
  have hrest : UInt64.ofNat (64 - (34 - x.integerPart.toNat)) = 64 - (34 - x.integerPart) := by
    rw [UInt64.ofNat_sub (by omega), hs]
    rfl
  rw [growthWrapping, if_neg hx, Word.eq_of_sub hgrowth, Word.eq_of_add htotal,
    Word.eq_of_shiftLeft hwhole, Word.eq_of_shiftRight hrounded, Word.eq_of_add hsum,
    Word.eq_of_shiftLeft hbias, Horner.rising_eq_ok_wrapping hy, hs, hless, hrest]

theorem powerWrapping_of_powerAt {e : Fixed} (h : x.powerAt p = .ok e) :
    e = x.powerWrapping p := by
  by_cases hx : growthLimit < x.raw
  · rw [powerWrapping, if_pos hx]
    exact eq_of_eq_ok h (growthAt_of_lt p hx).2
  simp only [powerAt, if_neg hx, bind_eq_ok, pure_eq_ok] at h
  obtain ⟨g, hg, power, hpower, rfl⟩ := h
  rw [powerWrapping, if_neg hx, Word.eq_of_add hpower, growthWrapping_of_growthAt p hg]

variable {p}

/-- The words in integers are what the chain's value and the integer part give. -/
theorem Grows.floor_eq {y : UInt64} {g e : Fixed} (h : Grows p x y g e) (hx : x.raw ≤ growthLimit) :
    x.growthFloor p = g.raw.toNat ∧ x.powerFloor p = e.raw.toNat := by
  have hi := integerPart_lt hx
  have hlimit : ¬ growthLimit < x.raw := UInt64.not_lt.2 hx
  have hpow : x.growthFloor p + 2 ^ 30 = e.raw.toNat := by
    rw [growthFloor, if_neg hlimit, ← Horner.rising_eq_ok_toInt h.rising, h.power_eq, recompose]
    dsimp only
    rw [show 34 - x.integerPart.toNat - 1 = 33 - x.integerPart.toNat by omega,
      show 64 - (34 - x.integerPart.toNat) = 30 + x.integerPart.toNat by omega]
    push_cast
    ring
  constructor
  · have := h.growth_add
    omega
  · rw [powerFloor, if_neg hlimit, hpow]

variable (p)

/-- Both growing exponentials answer, and with the words in integers. -/
theorem exists_growthAt (x : Fixed) : ∃ g e, x.growthAt p = .ok g ∧ x.powerAt p = .ok e ∧
    (g.raw.toNat : Int) = x.growthFloor p ∧ (e.raw.toNat : Int) = x.powerFloor p := by
  by_cases hx : growthLimit < x.raw
  · obtain ⟨hg, he⟩ := growthAt_of_lt p hx
    refine ⟨greatest, greatest, hg, he, ?_, ?_⟩
    · rw [growthFloor, if_pos hx]; rfl
    · rw [powerFloor, if_pos hx]; rfl
  · obtain ⟨y, g, e, h⟩ := exists_grows p (UInt64.not_lt.1 hx)
    obtain ⟨hg, he⟩ := h.floor_eq (UInt64.not_lt.1 hx)
    exact ⟨g, e, h.growthAt, h.powerAt, hg.symm, he.symm⟩

/-- **The growing exponentials stay in range.**  They answer at every argument, and words that wrap
    around and integers without a bound give the same answer.  At every fraction, no value that
    the chain multiplies is above `2 ^ 34`, its value leaves `2 ^ 34` free below `2 ^ 64`, and for
    every integer part so do the operations that follow it. -/
theorem growth_in_range :
    (∀ x : Fixed, (x.raw ≤ growthLimit → x.integerPart.toNat < 34) ∧
      ∃ g e, x.growthAt p = .ok g ∧ x.powerAt p = .ok e ∧
        g = x.growthWrapping p ∧ e = x.powerWrapping p ∧
        (g.raw.toNat : Int) = x.growthFloor p ∧ (e.raw.toNat : Int) = x.powerFloor p) ∧
    ∀ d : UInt64, d.toNat < 2 ^ 30 →
      (∀ k < p.growthTable.order,
        ∃ y, (p.growthTable.take k).rising d = .ok y ∧ y.toNat ≤ 2 ^ 34) ∧
      ∃ y, p.growthTable.rising d = .ok y ∧ y.toNat ≤ 2 ^ 64 - 2 ^ 34 ∧
        ∀ i < 34, ∃ rounded whole power growth,
          Word.shiftRightRounded y (34 - i) = .ok rounded ∧
          Word.shiftLeft 1 (64 - (34 - i)) = .ok whole ∧ whole.toNat = 2 ^ (30 + i) ∧
          Word.add rounded whole = .ok power ∧
          Word.sub power scale = .ok growth ∧ Word.add growth scale = .ok power := by
  constructor
  · intro x
    obtain ⟨g, e, hg, he, hfloor⟩ := exists_growthAt p x
    exact ⟨integerPart_lt, g, e, hg, he, growthWrapping_of_growthAt p hg,
      powerWrapping_of_powerAt p he, hfloor⟩
  · intro d hd
    obtain ⟨y, hy, hle⟩ := p.growthTable_rising_le hd
    refine ⟨fun k => p.growthTable_take_le hd, y, hy, hle, fun i hi => ?_⟩
    obtain ⟨rounded, whole, power, growth, hrounded, hwhole, hwhole_eq, hadd, -, hsub, hback⟩ :=
      exists_recompose hi hle
    exact ⟨rounded, whole, power, growth, hrounded, hwhole, hwhole_eq, hadd, hsub, hback⟩

/-- With the most steps, at the last argument of the range: its integer part and its fraction are
    the greatest, and so is the value that the last step multiplies. -/
theorem growth_in_range_limit :
    (⟨growthLimit⟩ : Fixed).integerPart.toNat < 34 ∧
    (∃ y, (Precision.seven.growthTable.take 6).rising 0x3fffffff = .ok y ∧ y.toNat ≤ 2 ^ 34) ∧
    ∃ y rounded whole power growth, Precision.seven.growthTable.rising 0x3fffffff = .ok y ∧
      Word.shiftRightRounded y 1 = .ok rounded ∧ Word.shiftLeft 1 63 = .ok whole ∧
      Word.add rounded whole = .ok power ∧ Word.sub power scale = .ok growth := by
  obtain ⟨htake, y, hy, -, hrest⟩ := (growth_in_range .seven).2 0x3fffffff (by decide)
  obtain ⟨rounded, whole, power, growth, hrounded, hwhole, -, hadd, hsub, -⟩ := hrest 33 (by decide)
  exact ⟨((growth_in_range .seven).1 ⟨growthLimit⟩).1 (by decide), htake 6 (by decide),
    y, rounded, whole, power, growth, hy, hrounded, hwhole, hadd, hsub⟩

/-! ## Larger arguments -/

theorem le_greatest (x : Fixed) : x ≤ greatest :=
  UInt64.le_iff_toNat_le.2 (Nat.le_sub_one_of_lt x.raw.toNat_lt_size)

section
variable {p} {y y₁ y₂ : UInt64} {g g₁ g₂ e e₁ e₂ : Fixed} {x₁ x₂ : Fixed}

/-- With the same integer part, the larger fraction has the larger chain value; with different
    ones, all results of the smaller lie below those of the larger. -/
theorem Grows.le (h₁ : Grows p x₁ y₁ g₁ e₁) (h₂ : Grows p x₂ y₂ g₂ e₂) (hlt : x₁.raw < x₂.raw)
    (hx₂ : x₂.raw ≤ growthLimit) : e₁.raw.toNat ≤ e₂.raw.toNat ∧
      (2 ^ 30 ≤ x₁.raw.toNat → e₁.raw.toNat < e₂.raw.toNat) := by
  have hx₁ : x₁.raw ≤ growthLimit := UInt64.le_of_lt (UInt64.lt_of_lt_of_le hlt hx₂)
  have hd₁ := x₁.fractionPart_lt
  have hd₂ := x₂.fractionPart_lt
  rw [UInt64.lt_iff_toNat_lt, toNat_raw x₁, toNat_raw x₂] at hlt
  rw [h₁.power_eq, h₂.power_eq]
  rcases Nat.lt_trichotomy x₁.integerPart.toNat x₂.integerPart.toNat with hi | hi | hi
  · have hseam : recompose y₁.toNat x₁.integerPart.toNat < recompose y₂.toNat x₂.integerPart.toNat :=
      recompose_lt_succ (integerPart_lt hx₁) h₁.rising_le hi
    exact ⟨hseam.le, fun _ => hseam⟩
  · have hd : x₁.fractionPart < x₂.fractionPart := UInt64.lt_iff_toNat_lt.2 (by omega)
    have hgap := p.growthTable_gap hd hd₂ h₁.rising h₂.rising
    rw [← hi]
    refine ⟨recompose_mono (by omega), fun hone => recompose_lt ?_⟩
    have hi₁ : 1 ≤ x₁.integerPart.toNat := by rw [toNat_raw] at hone; omega
    have hdrop : (2 : Nat) ^ (34 - x₁.integerPart.toNat) ≤ 2 ^ 33 :=
      Nat.pow_le_pow_right two_pos (by omega)
    omega
  · omega

/-- From one on, what an argument up to the limit has is below the greatest word. -/
theorem Grows.lt_greatest (h : Grows p x y g e) (hx : x.raw ≤ growthLimit)
    (hone : 2 ^ 30 ≤ x.raw.toNat) : e.raw.toNat < greatest.raw.toNat := by
  have hone : 1 ≤ x.integerPart.toNat := by rw [toNat_integerPart]; omega
  have hle := recompose_add_le_size (integerPart_lt hx) h.rising_le
  have htwo : (2 : Nat) ^ 1 ≤ 2 ^ x.integerPart.toNat := Nat.pow_le_pow_right two_pos hone
  rw [h.power_eq, show greatest.raw.toNat = 2 ^ 64 - 1 from rfl]
  omega

end

/-- **A larger argument never has a smaller growing exponential**, within the range, across
    integers and past the limit.  From one on, up to 34, it has a larger one; and at 34, as from
    there on, that is the greatest value. -/
theorem growth_monotone {x₁ x₂ : Fixed} (h : x₁ ≤ x₂) :
    ∃ g₁ g₂ e₁ e₂, x₁.growthAt p = .ok g₁ ∧ x₂.growthAt p = .ok g₂ ∧
      x₁.powerAt p = .ok e₁ ∧ x₂.powerAt p = .ok e₂ ∧ g₁ ≤ g₂ ∧ e₁ ≤ e₂ ∧
      (2 ^ 30 ≤ x₁.raw.toNat → x₁.raw < x₂.raw → x₂.raw.toNat ≤ 34 * 2 ^ 30 →
        g₁.raw < g₂.raw ∧ e₁.raw < e₂.raw) ∧
      (34 * 2 ^ 30 ≤ x₂.raw.toNat → g₂ = greatest ∧ e₂ = greatest) := by
  by_cases hx₁ : growthLimit < x₁.raw
  · -- both arguments are past the limit
    obtain ⟨hg₁, he₁⟩ := growthAt_of_lt p hx₁
    obtain ⟨hg₂, he₂⟩ := growthAt_of_lt p (UInt64.lt_of_lt_of_le hx₁ h)
    refine ⟨_, _, _, _, hg₁, hg₂, he₁, he₂, le_greatest _, le_greatest _, fun _ hlt hle => ?_,
      fun _ => ⟨rfl, rfl⟩⟩
    rw [growthLimit_lt_iff] at hx₁
    rw [UInt64.lt_iff_toNat_lt] at hlt
    omega
  have hx₁ := UInt64.not_lt.1 hx₁
  obtain ⟨y₁, g₁, e₁, h₁⟩ := exists_grows p hx₁
  have hadd₁ := h₁.growth_add
  by_cases hx₂ : growthLimit < x₂.raw
  · -- only the larger one is
    obtain ⟨hg₂, he₂⟩ := growthAt_of_lt p hx₂
    refine ⟨g₁, greatest, e₁, greatest, h₁.growthAt, hg₂, h₁.powerAt, he₂, le_greatest _,
      le_greatest _, fun hone _ _ => ?_, fun _ => ⟨rfl, rfl⟩⟩
    have hlt := h₁.lt_greatest hx₁ hone
    simp only [UInt64.lt_iff_toNat_lt]
    omega
  -- neither is
  have hend : ¬ 34 * 2 ^ 30 ≤ x₂.raw.toNat := fun hend => hx₂ (growthLimit_lt_iff.2 hend)
  have hx₂ := UInt64.not_lt.1 hx₂
  obtain ⟨y₂, g₂, e₂, h₂⟩ := exists_grows p hx₂
  have hadd₂ := h₂.growth_add
  refine ⟨g₁, g₂, e₁, e₂, h₁.growthAt, h₂.growthAt, h₁.powerAt, h₂.powerAt, ?_⟩
  show g₁.raw ≤ g₂.raw ∧ e₁.raw ≤ e₂.raw ∧ _
  simp only [UInt64.le_iff_toNat_le, UInt64.lt_iff_toNat_lt]
  rcases UInt64.lt_or_eq_of_le h with hlt | heq
  · obtain ⟨hle, hstrict⟩ := h₁.le h₂ hlt hx₂
    refine ⟨by omega, by omega, fun hone _ _ => ?_, fun hpast => absurd hpast hend⟩
    have := hstrict hone
    omega
  · obtain rfl : x₁ = x₂ := congrArg Fixed.mk heq
    obtain rfl : g₁ = g₂ := eq_of_eq_ok h₁.growthAt h₂.growthAt
    exact ⟨le_rfl, by omega, fun _ hlt _ => absurd hlt (Nat.lt_irrefl _),
      fun hpast => absurd hpast hend⟩

/-- From the last argument of the range to the first one past it. -/
theorem growth_monotone_limit :
    ∃ g e, (⟨growthLimit⟩ : Fixed).growthAt .five = .ok g ∧
      (⟨growthLimit⟩ : Fixed).powerAt .five = .ok e ∧
      g.raw < greatest.raw ∧ e.raw < greatest.raw := by
  obtain ⟨g, g', e, e', hg, -, he, -, -, -, hlt, hgreatest⟩ :=
    growth_monotone .five (show (⟨growthLimit⟩ : Fixed) ≤ ⟨0x880000000⟩ by decide)
  obtain ⟨rfl, rfl⟩ := hgreatest (by decide)
  exact ⟨g, e, hg, he, hlt (by decide) (by decide) (by decide)⟩

end PriceFeed.Fixed
