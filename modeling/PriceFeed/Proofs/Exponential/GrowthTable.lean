/-
  PriceFeed — the chains of the growing exponentials.

  A growth chain ends in a bare product `y · d`.  At the greatest fraction no value that
  it multiplies is above `2 ^ 34` (`growthTable_top`), so at no fraction is one; and `y` is
  never below `2 ^ 33` (`growthTable_bottom`), so from one fraction to the next the chain
  gains at least that much (`growthTable_gap`).
-/
import PriceFeed.Exponential.Tables
import PriceFeed.Proofs.Horner.Rising

namespace PriceFeed.Precision

/-- The greatest fraction is the only one that has to be looked at. -/
theorem growthTable_top (p : Precision) : ∀ k < p.growthTable.order,
    ∃ y, (p.growthTable.take k).rising 0x3fffffff = .ok y ∧ y.toNat ≤ 2 ^ 34 := by
  cases p <;> decide

theorem growthTable_bottom (p : Precision) :
    ∃ y, (p.growthTable.take (p.order - 1)).rising 0 = .ok y ∧ 2 ^ 33 ≤ y.toNat := by
  cases p <;> decide

theorem growthTable_concat (p : Precision) :
    p.growthTable = ⟨p.growthTable.lead, (p.growthTable.take (p.order - 1)).steps ++ [⟨0, 0⟩]⟩ := by
  cases p <;> rfl

variable (p : Precision) {d d' : UInt64}

theorem growthTable_take_le (hd : d.toNat < 2 ^ 30) {k : Nat} (hk : k < p.growthTable.order) :
    ∃ y, (p.growthTable.take k).rising d = .ok y ∧ y.toNat ≤ 2 ^ 34 := by
  obtain ⟨top, htop, hle⟩ := growthTable_top p k hk
  have hd : d ≤ 0x3fffffff := UInt64.le_iff_toNat_le.2 (Nat.le_sub_one_of_lt hd)
  obtain ⟨y, hy, hytop⟩ := Horner.exists_rising_le hd htop
  exact ⟨y, hy, (UInt64.le_iff_toNat_le.1 hytop).trans hle⟩

/-- The last step multiplies a value between `2 ^ 33` and `2 ^ 34` by the fraction. -/
theorem growthTable_rising (hd : d.toNat < 2 ^ 30) :
    ∃ y z, (p.growthTable.take (p.order - 1)).rising d = .ok y ∧ 2 ^ 33 ≤ y.toNat ∧
      y.toNat ≤ 2 ^ 34 ∧ p.growthTable.rising d = .ok z ∧ z.toNat = y.toNat * d.toNat := by
  have hk : p.order - 1 < p.growthTable.order := by cases p <;> decide
  obtain ⟨y, hy, hle⟩ := growthTable_take_le p hd hk
  obtain ⟨low, hlow, hge⟩ := growthTable_bottom p
  obtain ⟨low', hlow', hley⟩ := Horner.exists_rising_le UInt64.zero_le hy
  obtain rfl : low = low' := eq_of_eq_ok hlow hlow'
  rw [UInt64.le_iff_toNat_le] at hley
  have hprod : y.toNat * d.toNat < UInt64.size := by
    have := Nat.mul_le_mul hle (Nat.le_sub_one_of_lt hd)
    exact this.trans_lt (by decide)
  obtain ⟨z, hz⟩ := Word.exists_toNat hprod
  refine ⟨y, z, hy, hge.trans hley, hle, ?_, hz⟩
  rw [growthTable_concat, Horner.rising_concat]
  refine bind_eq_ok.2 ⟨y, hy, Horner.Step.rise_eq_ok.2 ⟨hprod, by decide, ?_⟩⟩
  rw [hz, Nat.shiftRight_zero]
  exact (Nat.zero_add _).symm

theorem growthTable_rising_le (hd : d.toNat < 2 ^ 30) :
    ∃ z, p.growthTable.rising d = .ok z ∧ z.toNat ≤ 2 ^ 64 - 2 ^ 34 := by
  obtain ⟨y, z, -, -, hle, hz, hyz⟩ := growthTable_rising p hd
  refine ⟨z, hz, ?_⟩
  rw [hyz]
  exact Nat.mul_le_mul hle (Nat.le_sub_one_of_lt hd)

/-- A chain's value is between `2 ^ 33` and `2 ^ 34` times its fraction. -/
theorem growthTable_rising_bounds (hd : d.toNat < 2 ^ 30) {z : UInt64}
    (hz : p.growthTable.rising d = .ok z) :
    2 ^ 33 * d.toNat ≤ z.toNat ∧ z.toNat ≤ 2 ^ 34 * d.toNat := by
  obtain ⟨y, w, -, hge, hle, hw, hyw⟩ := growthTable_rising p hd
  obtain rfl : z = w := eq_of_eq_ok hz hw
  rw [hyw]
  exact ⟨Nat.mul_le_mul_right _ hge, Nat.mul_le_mul_right _ hle⟩

/-- **From one fraction to the next a chain gains at least `2 ^ 33`.** -/
theorem growthTable_gap (hlt : d < d') (hd' : d'.toNat < 2 ^ 30) {z z' : UInt64}
    (hz : p.growthTable.rising d = .ok z) (hz' : p.growthTable.rising d' = .ok z') :
    z.toNat + 2 ^ 33 ≤ z'.toNat := by
  rw [UInt64.lt_iff_toNat_lt] at hlt
  obtain ⟨y, w, hy, hge, -, hw, hyw⟩ := growthTable_rising p (hlt.trans hd')
  obtain ⟨y', w', hy', -, -, hw', hyw'⟩ := growthTable_rising p hd'
  obtain rfl : z = w := eq_of_eq_ok hz hw
  obtain rfl : z' = w' := eq_of_eq_ok hz' hw'
  obtain ⟨y₀, hy₀, hmono⟩ := Horner.exists_rising_le (UInt64.le_of_lt (UInt64.lt_iff_toNat_lt.2 hlt)) hy'
  obtain rfl : y = y₀ := eq_of_eq_ok hy hy₀
  rw [UInt64.le_iff_toNat_le] at hmono
  calc z.toNat + 2 ^ 33
      ≤ y.toNat * d.toNat + y.toNat := by omega
    _ = y.toNat * (d.toNat + 1) := by ring
    _ ≤ y'.toNat * d'.toNat := Nat.mul_le_mul hmono hlt
    _ = z'.toNat := hyw'.symm

end PriceFeed.Precision
