/-
  PriceFeed — conversions compared.

  Both conversions look at nothing but what is kept of the product, as a number.  That number rises
  with the one that the decimal stands for, also where the larger loses more digits
  (`significant_mono`), it does not depend on the places that the decimal is written with
  (`significant_mul_tenPow`), and it is the word where the decimal stands for one
  (`significant_integer`).

  * `conversions_ordered`: smaller decimals are not rounded to greater values, and equal decimals
    are converted alike;
  * `conversions_agree`: both conversions find the value that a decimal stands for, and rounding
    answers what the exact conversion does.
-/
import PriceFeed.Proofs.Fixed.Conversion

namespace PriceFeed

namespace Decimal

variable {d₁ d₂ : Decimal}

theorem product_mul_tenPow_le (h₁ : ¬ (d₁.negative = true ∧ d₁.mantissa ≠ 0))
    (h₂ : ¬ (d₂.negative = true ∧ d₂.mantissa ≠ 0)) (h : d₁.toRat ≤ d₂.toRat) :
    d₁.product * tenPow d₂.scale ≤ d₂.product * tenPow d₁.scale := by
  have hmul : d₁.toRat * 2 ^ 30 ≤ d₂.toRat * 2 ^ 30 := by linarith
  have hpos₁ : (0 : ℚ) < tenPow d₁.scale := Nat.cast_pos.2 (tenPow_pos _)
  have hpos₂ : (0 : ℚ) < tenPow d₂.scale := Nat.cast_pos.2 (tenPow_pos _)
  rw [toRat_mul h₁, toRat_mul h₂, div_le_div_iff₀ hpos₁ hpos₂] at hmul
  exact_mod_cast hmul

end Decimal

namespace Fixed

/-! ## Two decimals -/

section
variable {d₁ d₂ : Decimal} (h₁ : ¬ (d₁.negative = true ∧ d₁.mantissa ≠ 0))
  (h₂ : ¬ (d₂.negative = true ∧ d₂.mantissa ≠ 0))
include h₁ h₂

theorem ofDecimalRounded_le
    (hle : d₁.product * tenPow d₂.scale ≤ d₂.product * tenPow d₁.scale) {x₂ : Fixed}
    (hx₂ : ofDecimalRounded d₂ = .ok x₂) : ∃ x₁, ofDecimalRounded d₁ = .ok x₁ ∧ x₁ ≤ x₂ := by
  have hkept : Decimal.significant d₁.product * tenPow d₂.scale ≤
      Decimal.significant d₂.product * tenPow d₁.scale := by
    rw [← Decimal.significant_mul_tenPow, ← Decimal.significant_mul_tenPow]
    exact Decimal.significant_mono hle
  have hround := halfEven_le_halfEven (tenPow_pos d₁.scale) (tenPow_pos d₂.scale) hkept
  rw [ofDecimalRounded_eq_significant h₂, ofNat_eq_ok_iff] at hx₂
  rw [hx₂] at hround
  have hlt := hround.trans_lt x₂.raw.toNat_lt_size
  rw [ofDecimalRounded_eq_significant h₁, ofNat, if_pos hlt]
  refine ⟨_, rfl, UInt64.le_iff_toNat_le.2 ?_⟩
  rwa [UInt64.toNat_ofNat_of_lt' hlt]

/-- Whether the product is too large, and whether what is kept is an integer, is a matter of the
    number alone. -/
theorem conversions_congr
    (heq : d₁.product * tenPow d₂.scale = d₂.product * tenPow d₁.scale) :
    ofDecimal d₁ = ofDecimal d₂ ∧ ofDecimalRounded d₁ = ofDecimalRounded d₂ := by
  have hpos₁ := tenPow_pos d₁.scale
  have hpos₂ := tenPow_pos d₂.scale
  have hlt : d₁.product < mantissaBound * tenPow d₁.scale ↔
      d₂.product < mantissaBound * tenPow d₂.scale := by
    rw [← Nat.mul_lt_mul_right hpos₂, heq, Nat.mul_right_comm, Nat.mul_lt_mul_right hpos₁]
  have hkept : Decimal.significant d₁.product * tenPow d₂.scale =
      Decimal.significant d₂.product * tenPow d₁.scale := by
    rw [← Decimal.significant_mul_tenPow, heq, Decimal.significant_mul_tenPow]
  constructor
  · rw [ofDecimal_eq_significant h₁, ofDecimal_eq_significant h₂,
      div_eq_div_of_mul_eq_mul hpos₁ hpos₂ hkept]
    simp only [hlt, mod_eq_zero_iff_of_mul_eq_mul hpos₁ hpos₂ hkept]
  · rw [ofDecimalRounded_eq_significant h₁, ofDecimalRounded_eq_significant h₂,
      halfEven_eq_halfEven hpos₁ hpos₂ hkept]

end

/-- **Conversions respect numbers.**  If a decimal is rounded to a value, no smaller one is refused
    or rounded to a greater value.  Decimals that stand for the same number, with however many
    places, have the same answer, or are refused for the same cause. -/
theorem conversions_ordered {d₁ d₂ : Decimal} :
    (0 ≤ d₁.toRat → d₁.toRat ≤ d₂.toRat → ∀ x₂, ofDecimalRounded d₂ = .ok x₂ →
      ∃ x₁, ofDecimalRounded d₁ = .ok x₁ ∧ x₁ ≤ x₂) ∧
    (d₁.toRat = d₂.toRat →
      ofDecimal d₁ = ofDecimal d₂ ∧ ofDecimalRounded d₁ = ofDecimalRounded d₂) := by
  constructor
  · intro hpos hle x₂ hx₂
    have h₁ := Decimal.not_negative_of_toRat hpos
    have h₂ := Decimal.not_negative_of_toRat (hpos.trans hle)
    exact ofDecimalRounded_le h₁ h₂ (Decimal.product_mul_tenPow_le h₁ h₂ hle) hx₂
  · intro heq
    rcases lt_or_ge d₁.toRat 0 with hneg | hpos
    · have h₁ := Decimal.toRat_neg_iff.1 hneg
      have h₂ := Decimal.toRat_neg_iff.1 (heq ▸ hneg)
      rw [ofDecimal_of_negative h₁, ofDecimal_of_negative h₂, ofDecimalRounded_of_negative h₁,
        ofDecimalRounded_of_negative h₂]
      exact ⟨rfl, rfl⟩
    · have h₁ := Decimal.not_negative_of_toRat hpos
      have h₂ := Decimal.not_negative_of_toRat (heq ▸ hpos)
      exact conversions_congr h₁ h₂ (Nat.le_antisymm (Decimal.product_mul_tenPow_le h₁ h₂ heq.le)
        (Decimal.product_mul_tenPow_le h₂ h₁ heq.ge))

/-- The greatest decimal of 28 places whose product loses nine digits, and the least whose product
    loses ten; and this one with nine places less. -/
theorem conversions_ordered_seam :
    (ofDecimalRounded (.positive 73786976294838206464000000000 28) = .ok ⟨7922816251⟩ ∧
      ∃ x₁, ofDecimalRounded (.positive 73786976294838206463999999999 28) = .ok x₁ ∧
        x₁ ≤ ⟨7922816251⟩) ∧
    ofDecimal (.positive 73786976294838206464 19) =
        ofDecimal (.positive 73786976294838206464000000000 28) ∧
      ofDecimalRounded (.positive 73786976294838206464 19) =
        ofDecimalRounded (.positive 73786976294838206464000000000 28) := by
  have hx₂ : ofDecimalRounded (.positive 73786976294838206464000000000 28) = .ok ⟨7922816251⟩ := by
    decide +kernel
  refine ⟨⟨hx₂, conversions_ordered.1 ?_ ?_ _ hx₂⟩, conversions_ordered.2 ?_⟩ <;>
    norm_num [Decimal.toRat, Decimal.positive]

/-! ## The two conversions -/

theorem ofNat_ne_invalid (n : Nat) : ofNat n ≠ .error .invalid := by
  unfold ofNat
  split <;> exact nofun

theorem ofDecimalRounded_of_ofDecimal {d : Decimal} {x : Fixed} (h : ofDecimal d = .ok x) :
    ofDecimalRounded d = .ok x := by
  have hsign : ¬ (d.negative = true ∧ d.mantissa ≠ 0) := by
    intro hneg
    rw [ofDecimal_of_negative hneg] at h
    exact nomatch h
  rw [ofDecimal_eq_ok_iff_significant hsign] at h
  rw [ofDecimalRounded_eq_significant hsign, h, halfEven_mul_cancel _ (tenPow_pos _), ofNat_raw]

/-- Negative numbers are the only ones that are refused as such. -/
theorem conversions_invalid_iff (d : Decimal) : (ofDecimal d = .error .invalid ↔ d.toRat < 0) ∧
    (ofDecimalRounded d = .error .invalid ↔ d.toRat < 0) := by
  rw [Decimal.toRat_neg_iff]
  by_cases hsign : d.negative = true ∧ d.mantissa ≠ 0
  · exact ⟨iff_of_true (ofDecimal_of_negative hsign) hsign,
      iff_of_true (ofDecimalRounded_of_negative hsign) hsign⟩
  · rw [ofDecimal_eq_significant hsign, ofDecimalRounded_eq_significant hsign]
    refine ⟨iff_of_false ?_ hsign, iff_of_false (ofNat_ne_invalid _) hsign⟩
    split_ifs
    · exact ofNat_ne_invalid _
    · exact nofun
    · exact nofun

/-- **Conversions agree.**  A decimal that stands for a value is converted to it both ways, however
    many of its digits the product loses; what the exact conversion accepts, rounding answers too;
    and both refuse a decimal as invalid exactly if it is below zero. -/
theorem conversions_agree (d : Decimal) :
    (∀ x : Fixed, d.toRat = x.toRat → ofDecimal d = .ok x ∧ ofDecimalRounded d = .ok x) ∧
    (∀ x, ofDecimal d = .ok x → ofDecimalRounded d = .ok x) ∧
    (ofDecimal d = .error .invalid ↔ d.toRat < 0) ∧
    (ofDecimalRounded d = .error .invalid ↔ d.toRat < 0) := by
  refine ⟨fun x h => ?_, fun x => ofDecimalRounded_of_ofDecimal, conversions_invalid_iff d⟩
  have hx := ofDecimal_of_toRat_eq h
  exact ⟨hx, ofDecimalRounded_of_ofDecimal hx⟩

/-- Seven quarters with all 28 places, of which the product loses nine; and a decimal that is
    accepted though it is no word. -/
theorem conversions_agree_padded :
    ((Decimal.positive 17500000000000000000000000000 28).toRat = (⟨0x70000000⟩ : Fixed).toRat ∧
      ofDecimal (.positive 17500000000000000000000000000 28) = .ok ⟨0x70000000⟩ ∧
      ofDecimalRounded (.positive 17500000000000000000000000000 28) = .ok ⟨0x70000000⟩) ∧
    ofDecimal (.positive 9999999990686774253845214844 28) = .ok ⟨2 ^ 30 - 1⟩ ∧
      ofDecimalRounded (.positive 9999999990686774253845214844 28) = .ok ⟨2 ^ 30 - 1⟩ := by
  have heq : (Decimal.positive 17500000000000000000000000000 28).toRat =
      (⟨0x70000000⟩ : Fixed).toRat := by
    decide +kernel
  have hx : ofDecimal (.positive 9999999990686774253845214844 28) = .ok ⟨2 ^ 30 - 1⟩ := by
    decide +kernel
  exact ⟨⟨heq, (conversions_agree _).1 _ heq⟩, hx, (conversions_agree _).2.1 _ hx⟩

end Fixed

end PriceFeed
