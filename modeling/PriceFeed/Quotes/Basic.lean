/-
  PriceFeed — quotes and what is told of them (`avg_2_i64` and `median_of_three`).

  A quote is a signed 64-bit word.

  * `average` is `avg_2_i64`, the mean of two quotes by way of 128 bits; it is rounded
    down, and a quote again (`toInt_average`);
  * `medianOfThree` is `median_of_three`: of the last two quotes, one is at most the median
    and one is at least the median (`le_medianOfThree_or`, `medianOfThree_le_or`).
-/
import PriceFeed.Text.Digits

namespace PriceFeed

/-- A published price. -/
abbrev Quote := Int64

/-- The first, second and third quartile of some quotes. -/
structure Quartiles where
  p25 : Quote
  p50 : Quote
  p75 : Quote
  deriving DecidableEq

namespace Quote

def text (q : Quote) : String :=
  Digits.intText q.toInt

/-! ## Means -/

/-- A quote in 128 bits. -/
def widened (q : Quote) : BitVec 128 :=
  q.toBitVec.signExtend 128

/-- The mean of two quotes: their sum in 128 bits, shifted right by one bit under its sign, and
    cut to 64 bits. -/
def average (a b : Quote) : Quote :=
  Int64.ofBitVec (((widened a + widened b).sshiftRight 1).setWidth 64)

theorem toInt_widened (q : Quote) : (widened q).toInt = q.toInt := by
  rw [widened, BitVec.toInt_signExtend_of_le (by decide), Int64.toInt_toBitVec]

/-- The sum of two quotes does not leave 128 bits. -/
theorem toInt_widened_add (a b : Quote) : (widened a + widened b).toInt = a.toInt + b.toInt := by
  have ha := Int64.le_toInt a
  have hb := Int64.le_toInt b
  have ha' := Int64.toInt_lt a
  have hb' := Int64.toInt_lt b
  rw [BitVec.toInt_add, toInt_widened, toInt_widened, Int.bmod_eq_of_le] <;> omega

/-- The mean of two quotes is rounded down, and does not leave the word. -/
theorem toInt_average (a b : Quote) : (average a b).toInt = (a.toInt + b.toInt) / 2 := by
  have hshift : ((widened a + widened b).sshiftRight 1).toInt = (a.toInt + b.toInt) / 2 := by
    rw [BitVec.toInt_sshiftRight, toInt_widened_add, Int.shiftRight_eq_div_pow]
    rfl
  have ha := Int64.le_toInt a
  have hb := Int64.le_toInt b
  have ha' := Int64.toInt_lt a
  have hb' := Int64.toInt_lt b
  rw [average, Int64.toInt_ofBitVec, ← BitVec.signExtend_eq_setWidth_of_le _ (by decide),
    BitVec.toInt_signExtend, hshift, Nat.min_eq_left (by decide), Int.bmod_eq_of_le] <;> omega

/-! ## Medians -/

def medianOfThree (first middle last : Quote) : Quote :=
  if first < middle then
    if middle < last then middle
    else if first < last then last
    else first
  else if last < middle then middle
  else if last < first then last
  else first

theorem medianOfThree_eq_or (a b c : Quote) :
    medianOfThree a b c = a ∨ medianOfThree a b c = b ∨ medianOfThree a b c = c := by
  unfold medianOfThree
  repeat' split
  all_goals simp

/-- Of the last two of three quotes, one is at most their median. -/
theorem le_medianOfThree_or (a b c : Quote) :
    b ≤ medianOfThree a b c ∨ c ≤ medianOfThree a b c := by
  unfold medianOfThree
  simp only [Int64.lt_iff_toInt_lt, Int64.le_iff_toInt_le]
  repeat' split
  all_goals omega

/-- Of the last two of three quotes, one is at least their median. -/
theorem medianOfThree_le_or (a b c : Quote) :
    medianOfThree a b c ≤ b ∨ medianOfThree a b c ≤ c := by
  unfold medianOfThree
  simp only [Int64.lt_iff_toInt_lt, Int64.le_iff_toInt_le]
  repeat' split
  all_goals omega

end Quote

end PriceFeed
