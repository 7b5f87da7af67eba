/-
  PriceFeed — the octaves of the exponentials.

  The integer part of an argument alone says between which two powers of two its
  exponentials lie; the fraction says where.  A growth chain gives zero at zero, at least half
  a unit at every other fraction, and leaves `2 ^ 34` free below `2 ^ 64`: so a power is the
  lower end of its octave only for an integer, and never its upper end.  A decay chain gives
  one at the first two fractions, and less but more than a half at all others: so at 30
  something is left at these two alone, and nothing at all later on.

  * `power_octave`: the octave of `2 ^ x`, which integers alone begin; and within the range
    no answer is the greatest word;
  * `decay_octave`: the octave of `2 ^ -x`, and where it is one and where it is zero.
-/
import PriceFeed.Proofs.Exponential.Decay
import PriceFeed.Proofs.Exponential.Growth

namespace PriceFeed.Fixed

variable (p : Precision) {x g e : Fixed} {y : UInt64}

/-- Within an octave, only its lower end is a power of two. -/
theorem exists_eq_two_pow_iff {n m : Nat} (hlow : 2 ^ m ≤ n) (hhigh : n < 2 ^ (m + 1)) :
    (∃ k, n = 2 ^ k) ↔ n = 2 ^ m := by
  constructor
  · rintro ⟨k, rfl⟩
    have hmk : m ≤ k := (Nat.pow_le_pow_iff_right one_lt_two).1 hlow
    have hkm : k < m + 1 := (Nat.pow_lt_pow_iff_right one_lt_two).1 hhigh
    rw [show k = m by omega]
  · intro h
    exact ⟨m, h⟩

/-! ## Growing -/

section
variable {p} (h : Grows p x y g e) (hx : x.raw ≤ growthLimit)
include h hx

theorem Grows.octave : 2 ^ (30 + x.integerPart.toNat) ≤ e.raw.toNat ∧
    e.raw.toNat + 2 ^ x.integerPart.toNat ≤ 2 ^ (31 + x.integerPart.toNat) := by
  rw [h.power_eq]
  exact ⟨le_recompose, recompose_add_le (integerPart_lt hx) h.rising_le⟩

/-- An octave begins with an integer: at every other fraction the chain gives at least `2 ^ 33`,
    which is rounded up. -/
theorem Grows.eq_two_pow_iff :
    e.raw.toNat = 2 ^ (30 + x.integerPart.toNat) ↔ x.fractionPart.toNat = 0 := by
  have hhalf : 2 ^ (33 - x.integerPart.toNat) ≤ 2 ^ 33 := Nat.pow_le_pow_right two_pos (by omega)
  obtain ⟨hlow, hhigh⟩ := p.growthTable_rising_bounds x.fractionPart_lt h.rising
  rw [h.power_eq, recompose_eq_iff (integerPart_lt hx)]
  constructor
  · intro hlt
    omega
  · intro hzero
    have hpos : 0 < 2 ^ (33 - x.integerPart.toNat) := by positivity
    rw [hzero] at hhigh
    omega

theorem Grows.power_lt_greatest : e.raw.toNat < greatest.raw.toNat := by
  obtain ⟨-, hhigh⟩ := h.octave hx
  rcases Nat.eq_zero_or_pos x.integerPart.toNat with hi | hi
  · rw [hi] at hhigh
    rw [show greatest.raw.toNat = 2 ^ 64 - 1 from rfl]
    omega
  · exact h.lt_greatest hx (by rw [toNat_raw]; omega)

end

/-- Within the range no answer is the greatest word. -/
theorem growthAt_ne_greatest (hx : x.raw ≤ growthLimit) :
    x.growthAt p ≠ .ok greatest ∧ x.powerAt p ≠ .ok greatest := by
  obtain ⟨y, g, e, h⟩ := exists_grows p hx
  have hadd := h.growth_add
  have hlt := h.power_lt_greatest hx
  constructor
  · intro hgreatest
    obtain rfl : g = greatest := eq_of_eq_ok h.growthAt hgreatest
    omega
  · intro hgreatest
    obtain rfl : e = greatest := eq_of_eq_ok h.powerAt hgreatest
    omega

theorem growthAt_eq_greatest_iff :
    (x.growthAt p = .ok greatest ↔ growthLimit < x.raw) ∧
      (x.powerAt p = .ok greatest ↔ growthLimit < x.raw) := by
  by_cases hx : growthLimit < x.raw
  · obtain ⟨hg, he⟩ := growthAt_of_lt p hx
    exact ⟨iff_of_true hg hx, iff_of_true he hx⟩
  · obtain ⟨hg, he⟩ := growthAt_ne_greatest p (UInt64.not_lt.1 hx)
    exact ⟨iff_of_false hg hx, iff_of_false he hx⟩

/-- **A power lies in the octave of its integer part.**  For `x = i + d / 2 ^ 30` within the range,
    it is at least `2 ^ i` and leaves at least `2 ^ i` units free below `2 ^ (i + 1)`.  It is `2 ^ i`
    for an integer, and at no other argument is it a power of two.  So what is answered past the
    limit, the greatest word, is the answer to no argument within it. -/
theorem power_octave :
    (∀ (x : Fixed) (i d : Nat), x.raw.toNat = 2 ^ 30 * i + d → d < 2 ^ 30 →
      x.raw.toNat ≤ 34 * 2 ^ 30 - 1 →
      ∃ e, x.powerAt p = .ok e ∧ 2 ^ (30 + i) ≤ e.raw.toNat ∧
        e.raw.toNat ≤ 2 ^ (31 + i) - 2 ^ i ∧ (e.raw.toNat = 2 ^ (30 + i) ↔ d = 0) ∧
        ((∃ k, e.raw.toNat = 2 ^ k) ↔ d = 0)) ∧
    ∀ x : Fixed, (x.growthAt p = .ok greatest ↔ growthLimit < x.raw) ∧
      (x.powerAt p = .ok greatest ↔ growthLimit < x.raw) := by
  constructor
  · intro x i d hparts hd hlimit
    have hx := le_growthLimit_iff.2 hlimit
    obtain ⟨y, g, e, h⟩ := exists_grows p hx
    obtain ⟨rfl, rfl⟩ := toNat_parts_eq hparts hd
    obtain ⟨hlow, hhigh⟩ := h.octave hx
    have hlt : e.raw.toNat < 2 ^ (30 + x.integerPart.toNat + 1) := by
      have hpos : 0 < 2 ^ x.integerPart.toNat := by positivity
      rw [show 30 + x.integerPart.toNat + 1 = 31 + x.integerPart.toNat by omega]
      omega
    have hexact := h.eq_two_pow_iff hx
    exact ⟨e, h.powerAt, hlow, Nat.le_sub_of_add_le hhigh, hexact,
      (exists_eq_two_pow_iff hlow hlt).trans hexact⟩
  · intro x
    exact growthAt_eq_greatest_iff p

/-- At the last argument of the range, which comes closest to the greatest word. -/
theorem power_octave_limit :
    ∃ e, (⟨growthLimit⟩ : Fixed).powerAt .seven = .ok e ∧ 2 ^ 63 ≤ e.raw.toNat ∧
      e.raw.toNat ≤ 2 ^ 64 - 2 ^ 33 ∧ ¬ ∃ k, e.raw.toNat = 2 ^ k := by
  obtain ⟨e, he, hlow, hhigh, -, hexact⟩ := (power_octave .seven).1 ⟨growthLimit⟩ 33 (2 ^ 30 - 1)
    (by decide) (by decide) (by decide)
  exact ⟨e, he, hlow, hhigh, fun hk => absurd (hexact.1 hk) (by decide)⟩

/-! ## Shrinking -/

section
variable {p} (h : Decays p x y g)
include h

/-- From an integer part of one on, no more than a half is left. -/
theorem Decays.eq_one_iff : g.raw.toNat = 2 ^ 30 ↔ x.raw.toNat ≤ 1 := by
  have hone := p.decayTable_falling_eq_iff x.fractionPart_lt.le h.falling
  have hle := h.falling_le
  rw [h.decay_eq, toNat_raw x]
  rcases Nat.eq_zero_or_pos x.integerPart.toNat with hi | hi
  · rw [hi, pow_zero, Nat.div_one, hone]
    omega
  · have hhalf : y.toNat / 2 ^ x.integerPart.toNat ≤ y.toNat / 2 ^ 1 :=
      Nat.div_le_div_left (Nat.pow_le_pow_right two_pos hi) (by decide)
    omega

/-- Up to 29 something is left of all that the chain gives, and from 31 on nothing is; at 30 only
    of `2 ^ 30` itself something is left. -/
theorem Decays.eq_zero_iff : g.raw.toNat = 0 ↔ 30 * 2 ^ 30 + 2 ≤ x.raw.toNat := by
  have hone := p.decayTable_falling_eq_iff x.fractionPart_lt.le h.falling
  have hge := h.le_falling
  have hle := h.falling_le
  have hd := x.fractionPart_lt
  rw [h.decay_eq, Nat.div_eq_zero_iff_lt (by positivity), toNat_raw x]
  rcases Nat.lt_trichotomy x.integerPart.toNat 30 with hi | hi | hi
  · have hpow : 2 ^ x.integerPart.toNat ≤ 2 ^ 29 := Nat.pow_le_pow_right two_pos (by omega)
    omega
  · rw [hi]
    omega
  · have hpow : 2 ^ 31 ≤ 2 ^ x.integerPart.toNat := Nat.pow_le_pow_right two_pos hi
    omega

theorem Decays.octave (hi : x.integerPart.toNat ≤ 29) :
    2 ^ (29 - x.integerPart.toNat) ≤ g.raw.toNat ∧
      g.raw.toNat ≤ 2 ^ (30 - x.integerPart.toNat) := by
  have hi' : x.integerPart.toNat ≤ 30 := by omega
  rw [h.decay_eq, ← Nat.pow_div hi two_pos, ← Nat.pow_div hi' two_pos]
  exact ⟨Nat.div_le_div_right h.le_falling, Nat.div_le_div_right h.falling_le⟩

end

/-- **A shrinking exponential lies in the octave of its integer part.**  It is never above one, and
    one only at the first two arguments; nothing is left of it from `30 + 2 / 2 ^ 30` on, and not
    before; and for `x = i + d / 2 ^ 30` with `i` up to 29 it is between `2 ^ -(i + 1)` and
    `2 ^ -i`. -/
theorem decay_octave (x : Fixed) :
    ∃ g, x.decayAt p = .ok g ∧ g.raw.toNat ≤ 2 ^ 30 ∧
      (g.raw.toNat = 0 ↔ 30 * 2 ^ 30 + 2 ≤ x.raw.toNat) ∧
      (g.raw.toNat = 2 ^ 30 ↔ x.raw.toNat ≤ 1) ∧
      ∀ i d : Nat, x.raw.toNat = 2 ^ 30 * i + d → d < 2 ^ 30 → i ≤ 29 →
        2 ^ (29 - i) ≤ g.raw.toNat ∧ g.raw.toNat ≤ 2 ^ (30 - i) := by
  obtain ⟨y, g, h⟩ := exists_decays p x
  have hle : g.raw.toNat ≤ 2 ^ 30 := by
    rw [h.decay_eq]
    exact (Nat.div_le_self _ _).trans h.falling_le
  refine ⟨g, h.decayAt, hle, h.eq_zero_iff, h.eq_one_iff, fun i d hparts hd hi => ?_⟩
  obtain ⟨rfl, rfl⟩ := toNat_parts_eq hparts hd
  exact h.octave hi

/-- At the last argument before 30, and on both sides of where nothing is left. -/
theorem decay_octave_end :
    (∃ g, (⟨0x77fffffff⟩ : Fixed).decayAt .one = .ok g ∧ 1 ≤ g.raw.toNat ∧ g.raw.toNat ≤ 2) ∧
    (∃ g, (⟨0x780000001⟩ : Fixed).decayAt .one = .ok g ∧ g.raw.toNat ≠ 0) ∧
    ∃ g, (⟨0x780000002⟩ : Fixed).decayAt .one = .ok g ∧ g.raw.toNat = 0 := by
  obtain ⟨g₁, hg₁, -, -, -, hoctave⟩ := decay_octave .one ⟨0x77fffffff⟩
  obtain ⟨g₂, hg₂, -, hzero₂, -⟩ := decay_octave .one ⟨0x780000001⟩
  obtain ⟨g₃, hg₃, -, hzero₃, -⟩ := decay_octave .one ⟨0x780000002⟩
  exact ⟨⟨g₁, hg₁, hoctave 29 (2 ^ 30 - 1) (by decide) (by decide) (by decide)⟩,
    ⟨g₂, hg₂, fun hg => absurd (hzero₂.1 hg) (by decide)⟩, g₃, hg₃, hzero₃.2 (by decide)⟩

end PriceFeed.Fixed
