/-
  PriceFeed — out of fixed point and back.

  A word takes up to 30 places in decimal, a decimal has at most 28, so most values are
  shown rounded.  The decimal times `2 ^ 30` is still within `10^(-9)` of the word
  (`toDecimal_near`), and what is kept of the product within a quarter (`near_toDecimal`); the
  nearest integer is the word.

  * `decimal_round_trip`: what comes back, by the three ways into fixed point.
-/
import Mathlib.Tactic
import PriceFeed.Proofs.Decimal.Text
import PriceFeed.Proofs.Fixed.Conversion

namespace PriceFeed

/-! ## Nearly an integer -/

/-- The quotient `a / b` is no further than `1 / k` from `n`. -/
structure Near (k a b n : Nat) : Prop where
  upper : k * a ≤ k * (n * b) + b
  lower : k * (n * b) ≤ k * a + b

namespace Near
variable {k a b c n : Nat}

theorem exact (k b n : Nat) : Near k (n * b) b n :=
  ⟨Nat.le_add_right _ _, Nat.le_add_right _ _⟩

theorem of_mul (hc : 0 < c) (h : Near k (a * c) (b * c) n) : Near k a b n where
  upper := Nat.le_of_mul_le_mul_right (by linarith [h.upper]) hc
  lower := Nat.le_of_mul_le_mul_right (by linarith [h.lower]) hc

/-- A number rounded in units of `c`. -/
theorem rounded (hc : 0 < c) (h : k * c ≤ 2 * b) : Near k (halfEven (n * b) c * c) b n := by
  have hupper := Nat.mul_le_mul_left k (halfEven_upper (n * b) c)
  have hlower := Nat.mul_le_mul_left k (halfEven_lower (a := n * b) hc)
  constructor <;> linarith

theorem halfEven_eq (hb : 0 < b) (h : Near 4 a b n) : halfEven a b = n := by
  obtain ⟨hupper, hlower⟩ := h
  rw [Nat.mul_comm n] at hupper hlower
  exact halfEven_eq_of_near (by omega) (by omega)

end Near

namespace Fixed

/-! ## To decimals -/

/-- The places end where the quotient is exact, or there are as many as there may be, or one more
    digit does not fit. -/
theorem places_eq (raw left s : Nat) :
    raw * tenPow (places raw left s) % denominator = 0 ∨ places raw left s = s + left ∨
      mantissaBound ≤ raw * tenPow (places raw left s + 1) / denominator := by
  induction left generalizing s with
  | zero => exact .inr (.inl rfl)
  | succ left ih =>
    unfold places
    split
    · rw [← Nat.add_assoc, Nat.add_right_comm]
      exact ih (s + 1)
    · next h => omega

/-- If the quotient is exact, and fits, at some number of places, it is exact where they end. -/
theorem places_exact {raw left s k : Nat} (hsk : s ≤ k) (hk : k ≤ s + left)
    (hexact : raw * tenPow k % denominator = 0)
    (hlt : raw * tenPow k / denominator < mantissaBound) :
    raw * tenPow (places raw left s) % denominator = 0 := by
  induction left generalizing s with
  | zero =>
    obtain rfl : s = k := by omega
    exact hexact
  | succ left ih =>
    unfold places
    split
    · next h =>
      have hne : s ≠ k := by
        rintro rfl
        exact h.1 hexact
      exact ih (by omega) (by omega)
    · next h =>
      by_contra hne
      have hne' : s ≠ k := by
        rintro rfl
        exact hne hexact
      refine h ⟨hne, Nat.lt_of_le_of_lt (Nat.div_le_div_right (Nat.mul_le_mul_left raw ?_)) hlt⟩
      exact tenPow_le_tenPow (by omega)

/-- Where the quotient is not exact, there are at least 18 places. -/
theorem le_tenPow_places {raw : Nat} (hraw : raw < UInt64.size)
    (h : raw * tenPow (places raw 28 0) % denominator ≠ 0) :
    tenPow 18 ≤ tenPow (places raw 28 0) := by
  refine tenPow_le_tenPow ?_
  rcases places_eq raw 28 0 with hexact | hall | hnext
  · exact absurd hexact h
  · omega
  · by_contra hlt
    have hnext := (Nat.le_div_iff_mul_le denominator_pos).1 hnext
    have hle : raw * tenPow (places raw 28 0 + 1) ≤ UInt64.size * tenPow 18 :=
      Nat.mul_le_mul hraw.le (tenPow_le_tenPow (by omega))
    exact absurd (hnext.trans hle) (by decide)

section
variable (x : Fixed)

theorem exists_toDecimal : ∃ j, x.toDecimal.scale + j = places x.raw.toNat 28 0 ∧
    x.toDecimal.mantissa * tenPow j =
      halfEven (x.raw.toNat * tenPow (places x.raw.toNat 28 0)) denominator :=
  Decimal.exists_stripZeros _ _

/-- Where the quotient is exact, so is the decimal. -/
theorem toDecimal_exact
    (h : x.raw.toNat * tenPow (places x.raw.toNat 28 0) % denominator = 0) :
    x.toDecimal.mantissa * denominator = x.raw.toNat * tenPow x.toDecimal.scale := by
  obtain ⟨j, hscale, hmantissa⟩ := x.exists_toDecimal
  rw [halfEven_of_dvd denominator_pos (Nat.dvd_of_mod_eq_zero h)] at hmantissa
  refine Nat.eq_of_mul_eq_mul_right (tenPow_pos j) ?_
  calc x.toDecimal.mantissa * denominator * tenPow j
      = x.raw.toNat * tenPow (places x.raw.toNat 28 0) / denominator * denominator := by
        rw [← hmantissa]; ring
    _ = x.raw.toNat * tenPow (places x.raw.toNat 28 0) :=
        Nat.div_mul_cancel (Nat.dvd_of_mod_eq_zero h)
    _ = x.raw.toNat * tenPow x.toDecimal.scale * tenPow j := by
        rw [← hscale, tenPow_add, Nat.mul_assoc]

/-- The decimal of a value, times `2 ^ 30`, is no further than `10^(-9)` from its word. -/
theorem toDecimal_near : Near (10 ^ 9) (x.toDecimal.mantissa * denominator)
    (tenPow x.toDecimal.scale) x.raw.toNat := by
  by_cases h : x.raw.toNat * tenPow (places x.raw.toNat 28 0) % denominator = 0
  · rw [x.toDecimal_exact h]
    exact Near.exact _ _ _
  · obtain ⟨j, hscale, hmantissa⟩ := x.exists_toDecimal
    have hsmall : 10 ^ 9 * denominator ≤ 2 * tenPow 18 := by decide
    have hplaces := le_tenPow_places x.raw.toNat_lt_size h
    refine Near.of_mul (tenPow_pos j) ?_
    rw [← tenPow_add, hscale, Nat.mul_right_comm, hmantissa]
    exact Near.rounded denominator_pos (by omega)

/-! ## And back -/

theorem not_negative_toDecimal : ¬ (x.toDecimal.negative = true ∧ x.toDecimal.mantissa ≠ 0) :=
  fun h => Bool.false_ne_true h.1

/-- A mantissa has room for a word and nine digits more, so what is lost is no more than a
    quarter. -/
theorem near_significant {p s n : Nat} (hn : n < UInt64.size) (h : Near (10 ^ 9) p (tenPow s) n) :
    Near 4 (Decimal.significant p) (tenPow s) n := by
  obtain ⟨hupper, hlower⟩ := h
  by_cases hlost : Decimal.excess p = 0
  · rw [Decimal.significant_of_excess_eq_zero hlost]
    constructor <;> omega
  · have hpos := tenPow_pos s
    have hword : n * tenPow s ≤ 2 ^ 64 * tenPow s := Nat.mul_le_mul_right _ hn.le
    have hkept := Decimal.significant_near p
    have hbound := Decimal.mul_tenPow_excess_le hlost
    rw [show mantissaBound = 2 ^ 96 from rfl] at hbound
    constructor <;> omega

theorem near_toDecimal : Near 4 (Decimal.significant x.toDecimal.product)
    (tenPow x.toDecimal.scale) x.raw.toNat :=
  near_significant x.raw.toNat_lt_size x.toDecimal_near

/-- The decimal of a value times `2 ^ 30` is below the bound of products. -/
theorem product_toDecimal_lt :
    x.toDecimal.product < mantissaBound * tenPow x.toDecimal.scale := by
  have hupper := x.toDecimal_near.upper
  have hpos := tenPow_pos x.toDecimal.scale
  have hword : x.raw.toNat * tenPow x.toDecimal.scale ≤ 2 ^ 64 * tenPow x.toDecimal.scale :=
    Nat.mul_le_mul_right _ x.raw.toNat_lt_size.le
  rw [show mantissaBound = 2 ^ 96 from rfl]
  unfold Decimal.product
  omega

theorem ofDecimalRounded_toDecimal : ofDecimalRounded x.toDecimal = .ok x := by
  rw [ofDecimalRounded_eq_significant x.not_negative_toDecimal,
    x.near_toDecimal.halfEven_eq (tenPow_pos _), ofNat_raw]

theorem ofText_text : ofText x.text = .ok x := by
  have hsign : x.toDecimal.negative = true → x.toDecimal.mantissa ≠ 0 := nofun
  rw [ofText, text, Decimal.text, String.toList_ofList, Decimal.trimBlanks_chars,
    Decimal.read?_chars _ hsign]
  exact x.ofDecimalRounded_toDecimal

theorem ofDecimal_toDecimal :
    ofDecimal x.toDecimal = .ok x ∨ ofDecimal x.toDecimal = .error .inexact := by
  rw [ofDecimal_eq_significant x.not_negative_toDecimal, if_pos x.product_toDecimal_lt]
  split
  · next h =>
    -- a quotient without a fraction is the rounded one
    rw [← halfEven_of_dvd (tenPow_pos _) (Nat.dvd_of_mod_eq_zero h),
      x.near_toDecimal.halfEven_eq (tenPow_pos _), ofNat_raw]
    exact .inl rfl
  · exact .inr rfl

theorem ofDecimal_toDecimal_of_exact
    (h : x.toDecimal.mantissa * denominator = x.raw.toNat * tenPow x.toDecimal.scale) :
    ofDecimal x.toDecimal = .ok x := by
  have hraw : x.raw.toNat < mantissaBound := x.raw.toNat_lt_size.trans (by decide)
  rw [ofDecimal_eq_ok_iff_significant x.not_negative_toDecimal, Decimal.product, h,
    Decimal.significant_integer hraw]

end

/-- If some decimal stands for a value, the decimal of the value does. -/
theorem toDecimal_exact_of_toRat_eq {d : Decimal} {x : Fixed} (h : d.toRat = x.toRat) :
    x.toDecimal.mantissa * denominator = x.raw.toNat * tenPow x.toDecimal.scale := by
  have hd : x.raw.toNat * tenPow d.scale = d.mantissa * denominator :=
    (Decimal.product_eq_of_toRat_eq h).symm
  refine x.toDecimal_exact (places_exact (k := d.scale) (Nat.zero_le _) ?_ ?_ ?_)
  · have := d.scale_le; omega
  · rw [hd, Nat.mul_mod_left]
  · rw [hd, Nat.mul_div_cancel _ denominator_pos]
    exact d.mantissa_lt

/-- **Out of fixed point and back.**  The text of a value, and the decimal of it rounded to the
    nearest, are the value.  The decimal taken as it stands is the value or is refused for its
    fraction; it is the value whenever some decimal stands for that exactly. -/
theorem decimal_round_trip (x : Fixed) :
    ofText x.text = .ok x ∧ ofDecimalRounded x.toDecimal = .ok x ∧
      (ofDecimal x.toDecimal = .ok x ∨ ofDecimal x.toDecimal = .error .inexact) ∧
      ∀ d : Decimal, d.toRat = x.toRat → ofDecimal x.toDecimal = .ok x :=
  ⟨x.ofText_text, x.ofDecimalRounded_toDecimal, x.ofDecimal_toDecimal,
    fun _ h => x.ofDecimal_toDecimal_of_exact (toDecimal_exact_of_toRat_eq h)⟩

/-- The word 4, `2 ^ (-28)`, takes all 28 places. -/
theorem decimal_round_trip_exact :
    (Decimal.positive 37252902984619140625 28).toRat = (⟨4⟩ : Fixed).toRat ∧
      ofDecimal (toDecimal ⟨4⟩) = .ok ⟨4⟩ := by
  have h : (Decimal.positive 37252902984619140625 28).toRat = (⟨4⟩ : Fixed).toRat := by
    decide +kernel
  exact ⟨h, (decimal_round_trip ⟨4⟩).2.2.2 _ h⟩

/-! The word 1, `2 ^ (-30)`, would take 30. -/

example : ofDecimal (toDecimal ⟨1⟩) = .error .inexact := by decide +kernel

end Fixed

end PriceFeed
