/-
  PriceFeed — decimals into fixed point.

  A decimal is multiplied by `2 ^ 30`, and the product keeps the digits that fit a mantissa.  A
  conversion looks at nothing but what is kept (`ofDecimalRounded_eq_significant`,
  `ofDecimal_eq_significant`).  So where digits are lost, it sees a number that is up to
  `Decimal.slack` off: half a unit of the last digit that is kept.

  * `ofDecimalRounded_nearest`: rounding finds the nearest integer, a tie going to the even one,
    except where the exact product is within the slack of a tie on the side of an odd integer;
  * `ofDecimal_eq_ok_iff`: the exact conversion accepts the decimals within the slack of a word.
-/
import Mathlib
import PriceFeed.Fixed.Decimal
import PriceFeed.Fixed.Value
import PriceFeed.Proofs.Decimal.Nearest
import PriceFeed.Proofs.Decimal.Product

namespace PriceFeed

theorem cast_tenPow (k : Nat) : (tenPow k : ℚ) = 10 ^ k :=
  Nat.cast_pow 10 k

namespace Decimal

/-! ## The product with `2 ^ 30` -/

/-- The digits of the product; its places are those of the decimal. -/
def product (d : Decimal) : Nat :=
  d.mantissa * Fixed.denominator

/-- How many of its last digits the product loses. -/
def lostDigits (d : Decimal) : Nat :=
  excess d.product

/-- The unit of the last digit that the product keeps, if it does not keep all of them. -/
def lostUnit (d : Decimal) : Nat :=
  if d.lostDigits = 0 then 0 else tenPow d.lostDigits

/-- How far the product that is kept may be from the exact one: half a unit of its last digit, or
    nothing if all digits are kept. -/
def slack (d : Decimal) : ℚ :=
  d.lostUnit / (2 * tenPow d.scale)

/-- A product of at most 96 bits keeps all its digits. -/
theorem slack_eq_zero {d : Decimal} (h : d.mantissa < 2 ^ 66) : d.slack = 0 := by
  have hfits : d.product < mantissaBound := by
    unfold product Fixed.denominator mantissaBound
    omega
  rw [slack, lostUnit, lostDigits, if_pos (excess_of_lt hfits), Nat.cast_zero, zero_div]

section
variable {d : Decimal}

theorem toRat_mul_eq (d : Decimal) : d.toRat * 2 ^ 30 =
    (if d.negative = true then -1 else 1) * (d.product / tenPow d.scale) := by
  have hdenominator : (Fixed.denominator : ℚ) = 2 ^ 30 := by norm_num [Fixed.denominator]
  rw [product, toRat, cast_tenPow, Nat.cast_mul, hdenominator]
  ring

theorem toRat_mul (h : ¬ (d.negative = true ∧ d.mantissa ≠ 0)) :
    d.toRat * 2 ^ 30 = d.product / tenPow d.scale := by
  rw [toRat_mul_eq]
  by_cases hneg : d.negative = true
  · rw [product, show d.mantissa = 0 by tauto]
    simp
  · rw [if_neg hneg, one_mul]

theorem toRat_neg_iff : d.toRat < 0 ↔ d.negative = true ∧ d.mantissa ≠ 0 := by
  constructor
  · intro h
    by_contra hsign
    have hpos : (0 : ℚ) ≤ d.product / tenPow d.scale := by positivity
    rw [← toRat_mul hsign] at hpos
    linarith
  · rintro ⟨hneg, hm⟩
    have hpos : (0 : ℚ) < d.mantissa / 10 ^ d.scale := by positivity
    rw [toRat, if_pos hneg, neg_one_mul, neg_div]
    linarith

theorem not_negative_of_toRat (h : 0 ≤ d.toRat) : ¬ (d.negative = true ∧ d.mantissa ≠ 0) :=
  fun hsign => absurd (toRat_neg_iff.2 hsign) (not_lt.2 h)

/-- The product of a decimal that stands for a value is its word, with zeros for the places. -/
theorem product_eq_of_toRat_eq {x : Fixed} (h : d.toRat = x.toRat) :
    d.product = x.raw.toNat * tenPow d.scale := by
  have hpos : (0 : ℚ) < tenPow d.scale := Nat.cast_pos.2 (tenPow_pos d.scale)
  have hproduct := toRat_mul (not_negative_of_toRat (h ▸ x.toRat_nonneg))
  rw [h, x.toRat_mul, eq_div_iff hpos.ne'] at hproduct
  exact_mod_cast hproduct.symm

/-- Rounding a product never reaches the bound of mantissas: both are multiples of `2 ^ 30`, so only
    a unit longer than that could bridge what is between them. -/
theorem rounded_product_lt (d : Decimal) :
    halfEven d.product (tenPow d.lostDigits) < mantissaBound := by
  have hlt : d.product < mantissaBound * tenPow d.lostDigits := excess_le_iff.1 le_rfl
  have hupper := halfEven_upper d.product (tenPow d.lostDigits)
  have hm := d.mantissa_lt
  by_contra hge
  have hge := Nat.mul_le_mul_left (tenPow d.lostDigits) (Nat.not_lt.1 hge)
  unfold product Fixed.denominator mantissaBound at *
  omega

theorem mul_eq_fit (hm : d.mantissa ≠ 0) :
    d.mul Fixed.denominator = fit d.negative d.product d.scale := by
  rw [mul, if_neg (not_or.2 ⟨hm, Fixed.denominator_pos.ne'⟩)]
  rfl

theorem tenPow_lostDigits_mul (h : d.lostDigits ≤ d.scale) :
    tenPow d.lostDigits * tenPow (d.scale - d.lostDigits) = tenPow d.scale := by
  rw [← tenPow_add, Nat.add_sub_cancel' h]

/-- What is kept of a product that has places left is rounded once more. -/
theorem halfEven_significant (h : d.lostDigits ≤ d.scale) :
    halfEven (significant d.product) (tenPow d.scale) =
      halfEven (halfEven d.product (tenPow d.lostDigits)) (tenPow (d.scale - d.lostDigits)) := by
  rw [← tenPow_lostDigits_mul h, Nat.mul_comm (tenPow d.lostDigits)]
  exact halfEven_mul_right _ _ (tenPow_pos _)

/-- What does not fit a mantissa does not fit a word. -/
theorem word_le_significant (h : mantissaBound * tenPow d.scale ≤ d.product) :
    UInt64.size * tenPow d.scale ≤ significant d.product :=
  le_significant (by decide) ((Nat.mul_le_mul_right _ (by decide)).trans h)

/-- A number below `2 ^ 64` whose product loses digits has places left. -/
theorem lostDigits_add_two_le {n : Nat} (hlost : d.lostDigits ≠ 0) (hn : n < UInt64.size)
    (h : 2 * d.product ≤ 2 * (n * tenPow d.scale) + tenPow d.scale + tenPow d.lostDigits) :
    d.lostDigits + 2 ≤ d.scale := by
  by_contra hlt
  have hscale : tenPow d.scale ≤ 10 * tenPow d.lostDigits := by
    rw [← tenPow_succ]
    exact tenPow_le_tenPow (by omega)
  have hword : n * tenPow d.scale ≤ 2 ^ 64 * (10 * tenPow d.lostDigits) :=
    Nat.mul_le_mul hn.le hscale
  have hbound : mantissaBound * tenPow d.lostDigits ≤ 10 * d.product := mul_tenPow_excess_le hlost
  have hpos := tenPow_pos d.lostDigits
  unfold mantissaBound at hbound
  omega

theorem lostUnit_lt (hm : d.mantissa ≠ 0) : d.lostUnit < 2 * d.product := by
  have hpos : 0 < d.product := Nat.mul_pos (Nat.pos_of_ne_zero hm) Fixed.denominator_pos
  rw [lostUnit]
  split
  · omega
  · next hlost =>
    have hbound : mantissaBound * tenPow d.lostDigits ≤ 10 * d.product :=
      mul_tenPow_excess_le hlost
    unfold mantissaBound at hbound
    omega

/-- A negative number is further below zero than the slack, and so from every word. -/
theorem slack_lt_of_negative (h : d.negative = true ∧ d.mantissa ≠ 0) (n : ℕ) :
    d.slack < |d.toRat * 2 ^ 30 - n| := by
  have hpos : (0 : ℚ) < tenPow d.scale := Nat.cast_pos.2 (tenPow_pos d.scale)
  have hlost : (d.lostUnit : ℚ) < 2 * d.product := by exact_mod_cast lostUnit_lt h.2
  rw [d.toRat_mul_eq, if_pos h.1]
  calc d.slack = d.lostUnit / 2 / tenPow d.scale := (div_div _ _ _).symm
    _ < d.product / tenPow d.scale := by
        rw [div_lt_div_iff_of_pos_right hpos]
        linarith
    _ ≤ d.product / tenPow d.scale + n := le_add_of_nonneg_right n.cast_nonneg
    _ = |-(d.product / tenPow d.scale + n : ℚ)| := by rw [abs_neg, abs_of_nonneg (by positivity)]
    _ = |-1 * (d.product / tenPow d.scale : ℚ) - n| := by rw [neg_one_mul, neg_add']

/-- What is kept is no further than half the lost unit from the product. -/
theorem product_near (d : Decimal) : 2 * d.product ≤ 2 * significant d.product + d.lostUnit ∧
    2 * significant d.product ≤ 2 * d.product + d.lostUnit := by
  rw [lostUnit]
  split
  · next hlost =>
    rw [significant_of_excess_eq_zero hlost]
    omega
  · exact significant_near d.product

theorem two_dvd_tenPow {k : Nat} (h : 1 ≤ k) : tenPow k % 2 = 0 := by
  obtain ⟨j, rfl⟩ := Nat.exists_eq_add_of_le' h
  rw [tenPow_succ]
  omega

theorem four_dvd_tenPow {k : Nat} (h : 2 ≤ k) : tenPow k % 4 = 0 := by
  obtain ⟨j, rfl⟩ := Nat.exists_eq_add_of_le' h
  rw [tenPow_succ, tenPow_succ]
  omega

end

end Decimal

namespace Fixed

/-! ## Conversions of what is kept -/

theorem ofNat_raw (x : Fixed) : ofNat x.raw.toNat = .ok x := by
  rw [ofNat, if_pos x.raw.toNat_lt_size, UInt64.ofNat_toNat]

theorem ofNat_eq_ok_iff {n : Nat} {x : Fixed} : ofNat n = .ok x ↔ n = x.raw.toNat := by
  constructor
  · intro h
    unfold ofNat at h
    split at h
    · next hn => cases h; exact (UInt64.toNat_ofNat_of_lt' hn).symm
    · exact nomatch h
  · rintro rfl
    exact x.ofNat_raw

theorem ofNat_of_le {n : Nat} (h : UInt64.size ≤ n) : ofNat n = .error .overflow :=
  if_neg (Nat.not_lt.2 h)

theorem ofDecimal_of_negative {d : Decimal} (h : d.negative = true ∧ d.mantissa ≠ 0) :
    ofDecimal d = .error .invalid := by
  rw [ofDecimal, scaled, if_pos h]
  rfl

theorem ofDecimalRounded_of_negative {d : Decimal} (h : d.negative = true ∧ d.mantissa ≠ 0) :
    ofDecimalRounded d = .error .invalid := by
  rw [ofDecimalRounded, scaled, if_pos h]
  rfl

theorem ofDecimal_of_scaled {d r : Decimal} (h : scaled d = .ok r) : ofDecimal d =
    if r.mantissa % tenPow r.scale = 0 then ofNat (r.mantissa / tenPow r.scale)
    else .error .inexact := by
  rw [ofDecimal, h]
  rfl

section
variable {d : Decimal} (hd : ¬ (d.negative = true ∧ d.mantissa ≠ 0))
include hd

theorem scaled_of_le (h : mantissaBound * tenPow d.scale ≤ d.product) :
    scaled d = .error .overflow := by
  have hlost : d.scale < d.lostDigits := Nat.not_le.1 fun hle =>
    absurd (Decimal.excess_le_iff.1 hle) (Nat.not_lt.2 h)
  have hm : d.mantissa ≠ 0 := by
    intro hm
    have hzero : d.product = 0 := by rw [Decimal.product, hm, Nat.zero_mul]
    rw [Decimal.lostDigits, hzero, Decimal.excess_of_lt (by decide)] at hlost
    exact absurd hlost (Nat.not_lt_zero _)
  rw [scaled, if_neg hd, d.mul_eq_fit hm, Decimal.fit_of_lt _ hlost]

/-- **What is kept of a product**: the number of its significant digits. -/
theorem exists_scaled (h : d.product < mantissaBound * tenPow d.scale) :
    ∃ r, scaled d = .ok r ∧
      r.mantissa * tenPow d.scale = Decimal.significant d.product * tenPow r.scale := by
  have hlost : d.lostDigits ≤ d.scale := Decimal.excess_le_iff.2 h
  by_cases hm : d.mantissa = 0
  · refine ⟨.zero, by rw [scaled, if_neg hd, Decimal.mul, if_pos (.inl hm)], ?_⟩
    rw [Decimal.product, hm, Nat.zero_mul, Decimal.significant_of_lt (by decide), Nat.zero_mul]
    exact Nat.zero_mul _
  · rw [scaled, if_neg hd, d.mul_eq_fit hm, Decimal.fit_of_le _ d.scale_le hlost d.rounded_product_lt]
    refine ⟨_, rfl, ?_⟩
    rw [Decimal.significant, Nat.mul_assoc]
    exact congrArg _ (Decimal.tenPow_lostDigits_mul hlost).symm

/-- **A conversion that rounds** takes the integer nearest to what is kept.  What keeps too much for
    a mantissa is too much for a word. -/
theorem ofDecimalRounded_eq_significant : ofDecimalRounded d =
    ofNat (halfEven (Decimal.significant d.product) (tenPow d.scale)) := by
  rcases Nat.lt_or_ge d.product (mantissaBound * tenPow d.scale) with h | h
  · obtain ⟨r, hr, hkept⟩ := exists_scaled hd h
    rw [← halfEven_eq_halfEven (tenPow_pos r.scale) (tenPow_pos d.scale) hkept, ofDecimalRounded, hr]
    rfl
  · have hround := halfEven_le_of_le (tenPow_pos d.scale) (Decimal.word_le_significant h)
    rw [halfEven_mul_cancel _ (tenPow_pos d.scale)] at hround
    rw [ofNat_of_le hround, ofDecimalRounded, scaled_of_le hd h]
    rfl

/-- **The exact conversion** takes what is kept if it is an integer. -/
theorem ofDecimal_eq_significant : ofDecimal d =
    if d.product < mantissaBound * tenPow d.scale then
      if Decimal.significant d.product % tenPow d.scale = 0 then
        ofNat (Decimal.significant d.product / tenPow d.scale)
      else .error .inexact
    else .error .overflow := by
  split
  · next h =>
    obtain ⟨r, hr, hkept⟩ := exists_scaled hd h
    have hpos := tenPow_pos r.scale
    have hpos' := tenPow_pos d.scale
    rw [ofDecimal_of_scaled hr, div_eq_div_of_mul_eq_mul hpos hpos' hkept]
    simp only [mod_eq_zero_iff_of_mul_eq_mul hpos hpos' hkept]
  · next h =>
    rw [ofDecimal, scaled_of_le hd (Nat.not_lt.1 h)]
    rfl

theorem ofDecimal_eq_ok_iff_significant {x : Fixed} : ofDecimal d = .ok x ↔
    Decimal.significant d.product = x.raw.toNat * tenPow d.scale := by
  have hpos := tenPow_pos d.scale
  rw [ofDecimal_eq_significant hd]
  split_ifs with h hdvd
  · rw [ofNat_eq_ok_iff, Nat.div_eq_iff_eq_mul_left hpos (Nat.dvd_of_mod_eq_zero hdvd)]
  · refine iff_of_false nofun fun hx => hdvd ?_
    rw [hx, Nat.mul_mod_left]
  · refine iff_of_false nofun fun hx => ?_
    have hword := Decimal.word_le_significant (Nat.not_lt.1 h)
    rw [hx] at hword
    exact absurd (Nat.le_of_mul_le_mul_right hword hpos) (Nat.not_le.2 x.raw.toNat_lt_size)

end

/-- A decimal that stands for a value is accepted: the word keeps all its digits. -/
theorem ofDecimal_of_toRat_eq {d : Decimal} {x : Fixed} (h : d.toRat = x.toRat) :
    ofDecimal d = .ok x := by
  have hword : x.raw.toNat < mantissaBound := x.raw.toNat_lt_size.trans (by decide)
  rw [ofDecimal_eq_ok_iff_significant (Decimal.not_negative_of_toRat (h ▸ x.toRat_nonneg)),
    Decimal.product_eq_of_toRat_eq h, Decimal.significant_integer hword]

/-! ## How near they are -/

section
variable {d : Decimal} (hd : ¬ (d.negative = true ∧ d.mantissa ≠ 0))
include hd

/-- The exact conversion answers with a word exactly if the product is no further from it than half
    the unit that it loses. -/
theorem ofDecimal_eq_ok_iff_near {x : Fixed} : ofDecimal d = .ok x ↔
    2 * d.product ≤ 2 * (x.raw.toNat * tenPow d.scale) + d.lostUnit ∧
      2 * (x.raw.toNat * tenPow d.scale) ≤ 2 * d.product + d.lostUnit := by
  rw [ofDecimal_eq_ok_iff_significant hd]
  constructor
  · intro hkept
    have hnear := d.product_near
    rwa [hkept] at hnear
  · intro hnear
    rw [Decimal.lostUnit] at hnear
    split at hnear
    · next hlost =>
      rw [Decimal.significant_of_excess_eq_zero hlost]
      omega
    · next hlost =>
      have hroom := Decimal.lostDigits_add_two_le hlost x.raw.toNat_lt_size (by omega)
      have hprod := Decimal.tenPow_lostDigits_mul (d := d) (by omega)
      rw [← hprod] at hnear
      have hkept := (halfEven_eq_mul_iff (tenPow_pos d.lostDigits)
        (Decimal.two_dvd_tenPow (by omega))).2 hnear
      rw [← hprod, Nat.mul_comm (tenPow d.lostDigits), ← Nat.mul_assoc, ← hkept]
      rfl

/-- Rounding answers with the nearest word exactly if that is even, or half the unit that the
    product loses does not reach a tie. -/
theorem ofDecimalRounded_eq_ok_iff_near {n : Nat} (hn : halfEven d.product (tenPow d.scale) = n)
    (hlt : n < UInt64.size) : ofDecimalRounded d = .ok ⟨UInt64.ofNat n⟩ ↔ n % 2 = 0 ∨
      2 * d.product + d.lostUnit < 2 * (n * tenPow d.scale) + tenPow d.scale ∧
      2 * (n * tenPow d.scale) + d.lostUnit < 2 * d.product + tenPow d.scale := by
  obtain ⟨hlow, hhigh, heven⟩ := (halfEven_eq_iff (tenPow_pos d.scale)).1 hn
  rw [Nat.mul_comm (tenPow d.scale)] at hlow hhigh heven
  rw [ofDecimalRounded_eq_significant hd, ofNat_eq_ok_iff, UInt64.toNat_ofNat_of_lt' hlt]
  by_cases hlost : d.lostDigits = 0
  · rw [Decimal.significant_of_excess_eq_zero hlost, hn, Decimal.lostUnit, if_pos hlost]
    omega
  · have hroom := Decimal.lostDigits_add_two_le hlost hlt (by omega)
    have hprod := Decimal.tenPow_lostDigits_mul (d := d) (by omega)
    rw [Decimal.halfEven_significant (by omega), Decimal.lostUnit, if_neg hlost, ← hprod]
    exact halfEven_halfEven_eq_iff (tenPow_pos _) (tenPow_pos _)
      (Decimal.four_dvd_tenPow (by omega)) (by rw [hprod, hn])

/-- A decimal whose nearest integer is no word is refused. -/
theorem ofDecimalRounded_of_le (h : UInt64.size ≤ halfEven d.product (tenPow d.scale)) :
    ofDecimalRounded d = .error .overflow := by
  rw [ofDecimalRounded_eq_significant hd]
  exact ofNat_of_le (Decimal.le_halfEven_significant (by decide) (by decide) h)

/-- What rounding answers is at most a half and half the lost unit away. -/
theorem near_of_ofDecimalRounded {x : Fixed} (hx : ofDecimalRounded d = .ok x) :
    2 * d.product ≤ 2 * (x.raw.toNat * tenPow d.scale) + (tenPow d.scale + d.lostUnit) ∧
      2 * (x.raw.toNat * tenPow d.scale) ≤ 2 * d.product + (tenPow d.scale + d.lostUnit) := by
  have hkept := d.product_near
  rw [ofDecimalRounded_eq_significant hd, ofNat_eq_ok_iff, halfEven_eq_iff (tenPow_pos _),
    Nat.mul_comm (tenPow _)] at hx
  omega

end

/-! ## As numbers -/

/-- **What rounding into fixed point answers.**  A number whose nearest integer is no word is
    refused.  For any other, the answer is that word, unless it is odd and the slack of the product
    reaches a tie; and it never is off by more than a half and the slack. -/
theorem ofDecimalRounded_nearest {d : Decimal} {n : ℕ} (hd : 0 ≤ d.toRat)
    (hn : NearestEven (d.toRat * 2 ^ 30) n) :
    (2 ^ 64 ≤ n → ofDecimalRounded d = .error .overflow) ∧
    (n < 2 ^ 64 → (ofDecimalRounded d = .ok ⟨UInt64.ofNat n⟩ ↔
      Even n ∨ |d.toRat * 2 ^ 30 - n| + d.slack < 1 / 2)) ∧
    ∀ x, ofDecimalRounded d = .ok x → |d.toRat * 2 ^ 30 - x.raw.toNat| ≤ 1 / 2 + d.slack := by
  have hpos := tenPow_pos d.scale
  have hsign := Decimal.not_negative_of_toRat hd
  rw [Decimal.toRat_mul hsign] at hn ⊢
  have hnearest := (nearestEven_div_iff hpos).1 hn
  refine ⟨fun h => ofDecimalRounded_of_le hsign (hnearest.symm ▸ h), fun h => ?_, fun x hx => ?_⟩
  · rw [ofDecimalRounded_eq_ok_iff_near hsign hnearest h, Nat.even_iff, Decimal.slack,
      abs_div_sub_add_lt_iff hpos]
  · have hhalf : (1 / 2 : ℚ) = tenPow d.scale / (2 * tenPow d.scale) := by field_simp
    rw [Decimal.slack, hhalf, ← add_div, ← Nat.cast_add, abs_div_sub_le_iff hpos]
    exact near_of_ofDecimalRounded hsign hx

/-- A product that has lost nine digits, next to an odd word. -/
theorem ofDecimalRounded_nearest_odd :
    NearestEven ((Decimal.positive 9999999990686774253845214844 28).toRat * 2 ^ 30) (2 ^ 30 - 1) ∧
      ofDecimalRounded (.positive 9999999990686774253845214844 28) = .ok ⟨2 ^ 30 - 1⟩ := by
  have hlost : (Decimal.positive 9999999990686774253845214844 28).lostUnit = 10 ^ 9 := by
    decide +kernel
  have hn : NearestEven ((Decimal.positive 9999999990686774253845214844 28).toRat * 2 ^ 30)
      (2 ^ 30 - 1) := by
    rw [nearestEven_iff]
    norm_num [Decimal.toRat, Decimal.positive, abs_lt]
  refine ⟨hn, (ofDecimalRounded_nearest ?_ hn).2.1 (by norm_num) |>.2 (.inr ?_)⟩
  · norm_num [Decimal.toRat, Decimal.positive]
  · rw [Decimal.slack, hlost]
    norm_num [Decimal.toRat, Decimal.positive, abs_lt, tenPow]

/-- **Rounding misses the nearest integer** where the product that is kept is a tie and the exact
    one is not. -/
theorem ofDecimalRounded_misses :
    NearestEven ((Decimal.positive 9999999986030161380767822266 28).toRat * 2 ^ 30) (2 ^ 30 - 1) ∧
      ofDecimalRounded (.positive 9999999986030161380767822266 28) = .ok ⟨2 ^ 30 - 2⟩ := by
  constructor
  · rw [nearestEven_iff]
    norm_num [Decimal.toRat, Decimal.positive, abs_lt]
  · decide +kernel

/-- **What the exact conversion accepts**: the decimals within the slack of their product of a
    word, and so, where the product keeps all its digits, the words. -/
theorem ofDecimal_eq_ok_iff (d : Decimal) (x : Fixed) :
    (ofDecimal d = .ok x ↔ |d.toRat * 2 ^ 30 - x.raw.toNat| ≤ d.slack) ∧
    (d.mantissa < 2 ^ 66 → ofDecimal d = .ok x → d.toRat = x.toRat) := by
  have hiff : ofDecimal d = .ok x ↔ |d.toRat * 2 ^ 30 - x.raw.toNat| ≤ d.slack := by
    by_cases hsign : d.negative = true ∧ d.mantissa ≠ 0
    · rw [ofDecimal_of_negative hsign]
      exact iff_of_false nofun (not_le.2 (Decimal.slack_lt_of_negative hsign x.raw.toNat))
    · rw [Decimal.toRat_mul hsign, Decimal.slack, abs_div_sub_le_iff (tenPow_pos d.scale),
        ofDecimal_eq_ok_iff_near hsign]
  refine ⟨hiff, fun hm hx => ?_⟩
  have hzero := hiff.1 hx
  rw [Decimal.slack_eq_zero hm, abs_nonpos_iff, sub_eq_zero] at hzero
  rw [toRat, ← hzero, mul_div_cancel_right₀ _ (by norm_num)]

/-- Three times `2 ^ (-27)`, with as many digits as are kept. -/
theorem ofDecimal_eq_ok_iff_exact :
    ofDecimal (.positive 22351741790771484375 27) = .ok ⟨24⟩ ∧
      (Decimal.positive 22351741790771484375 27).toRat = (⟨24⟩ : Fixed).toRat := by
  have hx : ofDecimal (.positive 22351741790771484375 27) = .ok ⟨24⟩ := by decide +kernel
  exact ⟨hx, (ofDecimal_eq_ok_iff _ _).2 (by decide) hx⟩

/-- **The exact conversion accepts a decimal that is no word.** -/
theorem ofDecimal_accepts :
    ofDecimal (.positive 9999999990686774253845214844 28) = .ok ⟨2 ^ 30 - 1⟩ ∧
      (Decimal.positive 9999999990686774253845214844 28).toRat ≠ (⟨2 ^ 30 - 1⟩ : Fixed).toRat := by
  constructor <;> decide +kernel

end Fixed

end PriceFeed
