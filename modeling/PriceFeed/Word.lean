/-
  PriceFeed — 64-bit arithmetic that reports leaving the word.

  An operation answers `.ok` with the exact result, or the `RangeFault` that
  says which operation could not give one.  Read through `UInt64.toNat`:

  * `mul_eq_ok`, `add_eq_ok`, `sub_eq_ok`: the result is the product, the sum,
    the difference of natural numbers;
  * `shiftRight_eq_ok`: the amount is below 64, and the result is the number
    less its low bits;
  * `shiftLeft_eq_ok`: the amount is below 64, and the result is the number
    moved up, less its bits from 64 on.
-/

namespace PriceFeed

/-- The operation whose result does not fit a word, or whose shift amount is
    not below its width. -/
inductive RangeFault where
  | multiply
  | add
  | subtract
  | shiftLeft
  | shiftRight
  deriving DecidableEq

def RangeFault.message : RangeFault → String
  | multiply => "attempt to multiply with overflow"
  | add => "attempt to add with overflow"
  | subtract => "attempt to subtract with overflow"
  | shiftLeft => "attempt to shift left with overflow"
  | shiftRight => "attempt to shift right with overflow"

namespace Word

/-- The product, if it is below `2 ^ 64`. -/
def mul (a b : UInt64) : Except RangeFault UInt64 :=
  if a.toNat * b.toNat < UInt64.size then .ok (a * b) else .error .multiply

/-- The sum, if it is below `2 ^ 64`. -/
def add (a b : UInt64) : Except RangeFault UInt64 :=
  if a.toNat + b.toNat < UInt64.size then .ok (a + b) else .error .add

/-- The difference, if it is not negative. -/
def sub (a b : UInt64) : Except RangeFault UInt64 :=
  if b.toNat ≤ a.toNat then .ok (a - b) else .error .subtract

/-- The word `a` without its `s` lowest bits, if `s` is below 64. -/
def shiftRight (a : UInt64) (s : Nat) : Except RangeFault UInt64 :=
  if s < 64 then .ok (a >>> UInt64.ofNat s) else .error .shiftRight

/-- The word `a` moved up by `s` bits, if `s` is below 64; bits that leave the word at
    the top are dropped. -/
def shiftLeft (a : UInt64) (s : Nat) : Except RangeFault UInt64 :=
  if s < 64 then .ok (a <<< UInt64.ofNat s) else .error .shiftLeft

/-! ## The operations on natural numbers -/

theorem mul_eq_ok {a b c : UInt64} : mul a b = .ok c ↔ c.toNat = a.toNat * b.toNat := by
  have hc := c.toNat_lt_size
  unfold mul
  split
  · next h =>
    rw [Except.ok.injEq, ← UInt64.toNat_inj, UInt64.toNat_mul, Nat.mod_eq_of_lt h]
    exact eq_comm
  · next h => simp only [reduceCtorEq, false_iff]; omega

theorem add_eq_ok {a b c : UInt64} : add a b = .ok c ↔ c.toNat = a.toNat + b.toNat := by
  have hc := c.toNat_lt_size
  unfold add
  split
  · next h =>
    rw [Except.ok.injEq, ← UInt64.toNat_inj, UInt64.toNat_add, Nat.mod_eq_of_lt h]
    exact eq_comm
  · next h => simp only [reduceCtorEq, false_iff]; omega

theorem sub_eq_ok {a b c : UInt64} : sub a b = .ok c ↔ c.toNat + b.toNat = a.toNat := by
  unfold sub
  split
  · next h =>
    rw [Except.ok.injEq, ← UInt64.toNat_inj,
      UInt64.toNat_sub_of_le _ _ (UInt64.le_iff_toNat_le.2 h)]
    omega
  · next h => simp only [reduceCtorEq, false_iff]; omega

theorem shiftRight_eq_ok {a c : UInt64} {s : Nat} :
    shiftRight a s = .ok c ↔ s < 64 ∧ c.toNat = a.toNat >>> s := by
  unfold shiftRight
  split
  · next h =>
    rw [Except.ok.injEq, ← UInt64.toNat_inj, UInt64.toNat_shiftRight, UInt64.toNat_ofNat',
      Nat.mod_eq_of_lt (by omega : s < 2 ^ 64), Nat.mod_eq_of_lt h]
    exact ⟨fun e => ⟨h, e.symm⟩, fun e => e.2.symm⟩
  · next h => simp [h]

theorem shiftLeft_eq_ok {a c : UInt64} {s : Nat} :
    shiftLeft a s = .ok c ↔ s < 64 ∧ c.toNat = (a.toNat <<< s) % UInt64.size := by
  unfold shiftLeft
  split
  · next h =>
    rw [Except.ok.injEq, ← UInt64.toNat_inj, UInt64.toNat_shiftLeft, UInt64.toNat_ofNat',
      Nat.mod_eq_of_lt (by omega : s < 2 ^ 64), Nat.mod_eq_of_lt h]
    exact ⟨fun e => ⟨h, e.symm⟩, fun e => e.2.symm⟩
  · next h => simp [h]

end Word

end PriceFeed
