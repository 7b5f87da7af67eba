/-
  PriceFeed — values and their parts.

  A word splits into an integer part of 34 bits and a fraction part of 30, and every such pair
  is split from one word.  `ofParts` refuses any other pair, the fraction first; `join` takes
  them all, and what does not fit a part does not get into the other.

  * `parts_codec`: splitting and putting together undo each other, and keep the order.
-/
import PriceFeed.Fixed.Parts

namespace PriceFeed.Fixed

theorem integerPart_lt_size (x : Fixed) : x.integerPart.toNat < 2 ^ 34 := by
  have := x.raw.toNat_lt
  rw [toNat_integerPart]
  omega

/-- A value is told by its parts. -/
theorem eq_of_split_eq {x y : Fixed} (h : x.split = y.split) : x = y := by
  obtain ⟨hi, hd⟩ := Prod.mk.inj h
  have hraw : x.raw.toNat = y.raw.toNat := by rw [toNat_raw x, toNat_raw y, hi, hd]
  cases x
  cases y
  exact congrArg mk (UInt64.toNat_inj.1 hraw)

section
variable {i d : UInt64}

theorem split_join (hi : i.toNat < 2 ^ 34) (hd : d.toNat < 2 ^ 30) : (join i d).split = (i, d) := by
  have hraw : (join i d).raw.toNat = 2 ^ 30 * i.toNat + d.toNat := by
    rw [toNat_join, Nat.mod_eq_of_lt hi, Nat.mod_eq_of_lt hd]
  obtain ⟨hint, hfrac⟩ := toNat_parts_eq hraw hd
  exact Prod.ext (UInt64.toNat_inj.1 hint) (UInt64.toNat_inj.1 hfrac)

theorem join_split (x : Fixed) : join x.split.1 x.split.2 = x :=
  eq_of_split_eq (split_join x.integerPart_lt_size x.fractionPart_lt)

/-- Bits that do not fit a part are dropped. -/
theorem join_mod (i d : UInt64) : join i d =
    join (UInt64.ofNat (i.toNat % 2 ^ 34)) (UInt64.ofNat (d.toNat % 2 ^ 30)) := by
  have hi : (UInt64.ofNat (i.toNat % 2 ^ 34)).toNat = i.toNat % 2 ^ 34 :=
    UInt64.toNat_ofNat_of_lt' ((Nat.mod_lt _ (by decide)).trans (by decide))
  have hd : (UInt64.ofNat (d.toNat % 2 ^ 30)).toNat = d.toNat % 2 ^ 30 :=
    UInt64.toNat_ofNat_of_lt' ((Nat.mod_lt _ (by decide)).trans (by decide))
  refine congrArg mk (UInt64.toNat_inj.1 ?_)
  show (join i d).raw.toNat = (join _ _).raw.toNat
  rw [toNat_join, toNat_join, hi, hd, Nat.mod_mod, Nat.mod_mod]

/-! ## Pairs that are refused -/

theorem fracMask_lt_iff : fracMask < d ↔ 2 ^ 30 ≤ d.toNat := by
  rw [UInt64.lt_iff_toNat_lt, show fracMask.toNat = 2 ^ 30 - 1 from by decide]
  omega

theorem shiftRight_intBits_eq_zero_iff : i >>> intBits = 0 ↔ i.toNat < 2 ^ 34 := by
  show i >>> 34 = 0 ↔ _
  rw [← UInt64.toNat_inj, UInt64.toNat_shiftRight, Nat.shiftRight_eq_div_pow]
  show i.toNat / 2 ^ 34 = 0 ↔ _
  omega

theorem and_fracMask_of_lt (hd : d.toNat < 2 ^ 30) : d &&& fracMask = d :=
  UInt64.toNat_inj.1 ((toNat_and_fracMask d).trans (Nat.mod_eq_of_lt hd))

/-- A fraction that does not fit is refused before the integer part is looked at. -/
theorem ofParts_eq (i d : UInt64) : ofParts i d =
    if 2 ^ 30 ≤ d.toNat then .error .invalid
    else if 2 ^ 34 ≤ i.toNat then .error .overflow else .ok (join i d) := by
  unfold ofParts ofInteger
  by_cases hd : 2 ^ 30 ≤ d.toNat
  · rw [if_pos (fracMask_lt_iff.2 hd), if_pos hd]
  · rw [if_neg (mt fracMask_lt_iff.1 hd), if_neg hd]
    by_cases hi : 2 ^ 34 ≤ i.toNat
    · rw [if_neg (mt shiftRight_intBits_eq_zero_iff.1 (Nat.not_lt.2 hi)), if_pos hi]
      rfl
    · rw [if_pos (shiftRight_intBits_eq_zero_iff.2 (Nat.lt_of_not_le hi)), if_neg hi, join,
        and_fracMask_of_lt (Nat.lt_of_not_le hd)]
      rfl

/-- What is put together from a pair is the value that splits into it. -/
theorem ofParts_eq_ok_iff {x : Fixed} : ofParts i d = .ok x ↔ x.split = (i, d) := by
  rw [ofParts_eq]
  constructor
  · intro h
    split_ifs at h with hd hi
    cases h
    exact split_join (Nat.lt_of_not_le hi) (Nat.lt_of_not_le hd)
  · rintro ⟨⟩
    rw [if_neg (Nat.not_le.2 x.fractionPart_lt), if_neg (Nat.not_le.2 x.integerPart_lt_size)]
    exact congrArg _ x.join_split

theorem exists_split_iff : (∃ x : Fixed, x.split = (i, d)) ↔ i.toNat < 2 ^ 34 ∧ d.toNat < 2 ^ 30 := by
  constructor
  · rintro ⟨x, ⟨⟩⟩
    exact ⟨x.integerPart_lt_size, x.fractionPart_lt⟩
  · exact fun ⟨hi, hd⟩ => ⟨join i d, split_join hi hd⟩

end

/-! ## Order -/

theorem le_iff_split (x y : Fixed) : x ≤ y ↔ Prod.Lex (· < ·) (· ≤ ·) x.split y.split := by
  have hx := x.fractionPart_lt
  have hy := y.fractionPart_lt
  rw [Prod.lex_def]
  show x.raw ≤ y.raw ↔ x.integerPart < y.integerPart ∨
    x.integerPart = y.integerPart ∧ x.fractionPart ≤ y.fractionPart
  rw [UInt64.le_iff_toNat_le, UInt64.lt_iff_toNat_lt, ← UInt64.toNat_inj, UInt64.le_iff_toNat_le,
    toNat_raw x, toNat_raw y]
  omega

/-- **Splitting and putting together undo each other**, between all values and the pairs of an
    integer part of 34 bits and a fraction part of 30.  Of any other pair the fraction is refused
    as invalid if it does not fit, else the integer part as an overflow; `join` drops what does not
    fit instead.  Values are ordered as their parts are, the integer parts first. -/
theorem parts_codec :
    (∀ i d, ofParts i d =
      if 2 ^ 30 ≤ d.toNat then .error .invalid
      else if 2 ^ 34 ≤ i.toNat then .error .overflow else .ok (join i d)) ∧
    (∀ i d x, ofParts i d = .ok x ↔ x.split = (i, d)) ∧
    (∀ i d, (∃ x : Fixed, x.split = (i, d)) ↔ i.toNat < 2 ^ 34 ∧ d.toNat < 2 ^ 30) ∧
    (∀ x : Fixed, join x.split.1 x.split.2 = x) ∧
    (∀ i d, join i d =
      join (UInt64.ofNat (i.toNat % 2 ^ 34)) (UInt64.ofNat (d.toNat % 2 ^ 30))) ∧
    (∀ i d, (join i d).raw.toNat = 2 ^ 30 * (i.toNat % 2 ^ 34) + d.toNat % 2 ^ 30) ∧
    ∀ x y : Fixed, x ≤ y ↔ Prod.Lex (· < ·) (· ≤ ·) x.split y.split :=
  ⟨ofParts_eq, fun _ _ _ => ofParts_eq_ok_iff, fun _ _ => exists_split_iff, join_split, join_mod,
    toNat_join, le_iff_split⟩

/-- Bits past either part get into neither. -/
example : join 0x3400000001 0x340000002 = ⟨0x40000002⟩ := by decide

end PriceFeed.Fixed
