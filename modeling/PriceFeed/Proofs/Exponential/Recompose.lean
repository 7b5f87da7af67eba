/-
  PriceFeed — what follows the chain of a growing exponential.

  With `i` before the point, the result is the chain's value less its low `34 - i` bits,
  rounded, and moved up by `2 ^ (30 + i)` (`recompose`).  The chain leaves room below
  `2 ^ 64` for the rounding, so the results for `i` lie below those for `i + 1`
  (`recompose_add_le`, `le_recompose`); and values that differ by more than the rounding
  takes have different results (`recompose_lt`).  Nothing but `2 ^ (30 + i)` is left of a value
  below half a unit (`recompose_eq_iff`).

  * `recompose_near`: the rounding is all that is lost;
  * `exists_recompose`: the operations on words stay in range.
-/
import PriceFeed.Exponential.Growth
import PriceFeed.Proofs.Word

namespace PriceFeed

/-! ## Rounding and moving up -/

/-- The word of `2 ^ x` for the value `y` of the chain and `i` before the point. -/
def recompose (y i : Nat) : Nat :=
  (y + 2 ^ (33 - i)) / 2 ^ (34 - i) + 2 ^ (30 + i)

section
variable {y y' i : Nat}

/-- What is dropped is two halves. -/
theorem two_pow_unit (hi : i < 34) : 2 ^ (34 - i) = 2 * 2 ^ (33 - i) := by
  rw [← pow_succ', show 33 - i + 1 = 34 - i by omega]

theorem recompose_mono (h : y ≤ y') : recompose y i ≤ recompose y' i :=
  Nat.add_le_add_right (Nat.div_le_div_right (Nat.add_le_add_right h _)) _

theorem recompose_lt (h : y + 2 ^ (34 - i) ≤ y') : recompose y i < recompose y' i := by
  refine Nat.add_lt_add_right ?_ _
  calc (y + 2 ^ (33 - i)) / 2 ^ (34 - i)
      < (y + 2 ^ (33 - i)) / 2 ^ (34 - i) + 1 := Nat.lt_succ_self _
    _ = (y + 2 ^ (33 - i) + 2 ^ (34 - i)) / 2 ^ (34 - i) := (Nat.add_div_right _ (by positivity)).symm
    _ ≤ (y' + 2 ^ (33 - i)) / 2 ^ (34 - i) := Nat.div_le_div_right (by omega)

theorem le_recompose : 2 ^ (30 + i) ≤ recompose y i :=
  Nat.le_add_left _ _

/-- Only a chain's value of less than half a unit leaves nothing but what is moved up. -/
theorem recompose_eq_iff (hi : i < 34) : recompose y i = 2 ^ (30 + i) ↔ y < 2 ^ (33 - i) := by
  have hdouble := two_pow_unit hi
  rw [recompose, Nat.add_eq_right, Nat.div_eq_zero_iff_lt (by positivity), hdouble]
  omega

theorem recompose_add_le (hi : i < 34) (hy : y ≤ 2 ^ 64 - 2 ^ 34) :
    recompose y i + 2 ^ i ≤ 2 ^ (31 + i) := by
  have hdouble := two_pow_unit hi
  have hprod : 2 ^ (33 - i) * 2 ^ i = 2 ^ 33 := by
    rw [← pow_add, Nat.sub_add_cancel (by omega)]
  have hpos : 0 < 2 ^ (33 - i) := by positivity
  rw [recompose, hdouble, pow_add, pow_add]
  generalize 2 ^ (33 - i) = h at *
  generalize 2 ^ i = a at *
  -- the room that the chain leaves, `2 ^ 34`, is `2 * a` times what is dropped
  have hroom : (2 ^ 30 * a - a + 1) * (2 * h) = (2 ^ 31 - 2) * (h * a) + 2 * h := by
    zify [show a ≤ 2 ^ 30 * a by omega]
    ring
  have hlt : (y + h) / (2 * h) < 2 ^ 30 * a - a + 1 := by
    rw [Nat.div_lt_iff_lt_mul (by omega)]
    omega
  omega

theorem recompose_add_le_size (hi : i < 34) (hy : y ≤ 2 ^ 64 - 2 ^ 34) :
    recompose y i + 2 ^ i ≤ 2 ^ 64 :=
  (recompose_add_le hi hy).trans (Nat.pow_le_pow_right two_pos (by omega))

theorem recompose_lt_succ (hi : i < 34) (hy : y ≤ 2 ^ 64 - 2 ^ 34) {j : Nat} (hj : i < j) :
    recompose y i < recompose y' j := by
  have hle := recompose_add_le hi hy
  have hpos : 0 < 2 ^ i := by positivity
  calc recompose y i < 2 ^ (31 + i) := by omega
    _ ≤ 2 ^ (30 + j) := Nat.pow_le_pow_right two_pos (by omega)
    _ ≤ recompose y' j := le_recompose

/-- In units of what is dropped, the result is no further than half a unit from the chain's value
    moved up. -/
theorem recompose_near (hi : i < 34) :
    y + 2 ^ 64 ≤ 2 ^ (34 - i) * recompose y i + 2 ^ (33 - i) ∧
      2 ^ (34 - i) * recompose y i ≤ y + 2 ^ 64 + 2 ^ (33 - i) := by
  have hdouble := two_pow_unit hi
  have hprod : 2 ^ (34 - i) * 2 ^ (30 + i) = 2 ^ 64 := by
    rw [← pow_add, show 34 - i + (30 + i) = 64 by omega]
  have hdiv := Nat.div_add_mod (y + 2 ^ (33 - i)) (2 ^ (34 - i))
  have hmod := Nat.mod_lt (y + 2 ^ (33 - i)) (show 0 < 2 ^ (34 - i) by positivity)
  rw [recompose, Nat.mul_add, hprod]
  omega

end

/-! ## The operations after the chain -/

namespace Word

theorem exists_shiftLeft_one {s : Nat} (hs : s < 64) :
    ∃ w, shiftLeft 1 s = .ok w ∧ w.toNat = 2 ^ s := by
  have hlt : 2 ^ s < UInt64.size := Nat.pow_lt_pow_right one_lt_two hs
  obtain ⟨w, hw⟩ := exists_toNat hlt
  refine ⟨w, shiftLeft_eq_ok.2 ⟨hs, ?_⟩, hw⟩
  rw [hw, show (1 : UInt64).toNat = 1 from rfl, Nat.one_shiftLeft, Nat.mod_eq_of_lt hlt]

theorem exists_shiftRightRounded {y : UInt64} {s : Nat} (hs : s < 64)
    (hy : y.toNat + 2 ^ (s - 1) < UInt64.size) :
    ∃ w, shiftRightRounded y s = .ok w ∧ w.toNat = (y.toNat + 2 ^ (s - 1)) / 2 ^ s := by
  obtain ⟨bias, hbias, hbias_eq⟩ := exists_shiftLeft_one (show s - 1 < 64 by omega)
  obtain ⟨sum, hsum⟩ := exists_toNat hy
  rw [← hbias_eq] at hsum hy ⊢
  obtain ⟨w, hw⟩ := exists_toNat (Nat.lt_of_le_of_lt (Nat.div_le_self _ (2 ^ s)) hy)
  have hshift : shiftRight sum s = .ok w :=
    shiftRight_eq_ok.2 ⟨hs, by rw [hw, hsum, Nat.shiftRight_eq_div_pow]⟩
  refine ⟨w, ?_, hw⟩
  simp only [shiftRightRounded, bind_eq_ok]
  exact ⟨bias, hbias, sum, add_eq_ok.2 hsum, hshift⟩

end Word

/-- The operations that follow the chain stay in range, for every integer part. -/
theorem exists_recompose {y : UInt64} {i : Nat} (hi : i < 34) (hy : y.toNat ≤ 2 ^ 64 - 2 ^ 34) :
    ∃ rounded whole power growth, Word.shiftRightRounded y (34 - i) = .ok rounded ∧
      Word.shiftLeft 1 (64 - (34 - i)) = .ok whole ∧ whole.toNat = 2 ^ (30 + i) ∧
      Word.add rounded whole = .ok power ∧ power.toNat = recompose y.toNat i ∧
      Word.sub power Fixed.scale = .ok growth ∧ Word.add growth Fixed.scale = .ok power := by
  have hbias : (2 : Nat) ^ (34 - i - 1) ≤ 2 ^ 33 := Nat.pow_le_pow_right two_pos (by omega)
  have hlow : (2 : Nat) ^ 30 ≤ recompose y.toNat i :=
    (Nat.pow_le_pow_right two_pos (by omega)).trans le_recompose
  have hhigh : recompose y.toNat i < UInt64.size := by
    have hpos : 0 < 2 ^ i := by positivity
    exact Nat.lt_of_lt_of_le (by omega) (recompose_add_le_size hi hy)
  obtain ⟨rounded, hrounded, hrounded_eq⟩ := Word.exists_shiftRightRounded
    (show 34 - i < 64 by omega) (show y.toNat + 2 ^ (34 - i - 1) < 2 ^ 64 by omega)
  obtain ⟨whole, hwhole, hwhole_eq⟩ := Word.exists_shiftLeft_one (show 64 - (34 - i) < 64 by omega)
  rw [show 34 - i - 1 = 33 - i by omega] at hrounded_eq
  rw [show 64 - (34 - i) = 30 + i by omega] at hwhole_eq
  obtain ⟨power, hpower⟩ := Word.exists_toNat hhigh
  obtain ⟨growth, hgrowth⟩ := Word.exists_toNat ((Nat.sub_le _ (2 ^ 30)).trans_lt hhigh)
  have hscale : growth.toNat + Fixed.scale.toNat = power.toNat := by
    rw [hgrowth, hpower, show Fixed.scale.toNat = 2 ^ 30 from rfl, Nat.sub_add_cancel hlow]
  refine ⟨rounded, whole, power, growth, hrounded, hwhole, hwhole_eq, Word.add_eq_ok.2 ?_, hpower,
    Word.sub_eq_ok.2 hscale, Word.add_eq_ok.2 hscale.symm⟩
  rw [hpower, hrounded_eq, hwhole_eq, recompose]

end PriceFeed
