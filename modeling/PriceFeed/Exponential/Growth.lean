/-
  PriceFeed — growing exponentials (the kernel `Exp2m1`, its `eval` and `eval_exp2`).

  * `Fixed.growthAt` is `eval`, the value `2 ^ x - 1`, and `Fixed.growth` is `exp2m1`,
    the same at the standard precision;
  * `Fixed.powerAt` is `eval_exp2`, the value `2 ^ x`, and `Fixed.power` is `exp2`.

  For an argument `x = i + d / 2 ^ 30` below 34, the chain of
  `Precision.growthTable` gives `y`, about `2 ^ 64 · (2 ^ (d / 2 ^ 30) - 1)`, and

      2 ^ 30 · (2 ^ x - 1) = y / 2 ^ (34 - i) + 2 ^ (30 + i) - 2 ^ 30.

  The quotient is rounded to the nearest integer, a tie going up.  From
  34 on the answer is `Fixed.greatest`.
-/
import PriceFeed.Exponential.Tables
import PriceFeed.Fixed.Basic

namespace PriceFeed

/-- The last word with a growing exponential of its own: `34 - 2⁻³⁰`. -/
def growthLimit : UInt64 := 0x87fffffff

/-- The integer nearest to `y / 2 ^ s`, a tie going up, for `1 ≤ s`. -/
def Word.shiftRightRounded (y : UInt64) (s : Nat) : Except RangeFault UInt64 := do
  let bias ← Word.shiftLeft 1 (s - 1)
  Word.shiftRight (← Word.add y bias) s

namespace Fixed

/-- The value `2 ^ x - 1` at a precision. -/
def growthAt (p : Precision) (x : Fixed) : Except RangeFault Fixed :=
  if x.raw > growthLimit then .ok greatest
  else do
    let y ← p.growthTable.rising x.fractionPart
    let s := 34 - x.integerPart.toNat
    let rounded ← Word.shiftRightRounded y s
    let whole ← Word.shiftLeft 1 (64 - s)
    return ⟨← Word.sub (← Word.add rounded whole) scale⟩

/-- The value `2 ^ x` at a precision. -/
def powerAt (p : Precision) (x : Fixed) : Except RangeFault Fixed :=
  if x.raw > growthLimit then .ok greatest
  else do
    let less ← x.growthAt p
    return ⟨← Word.add less.raw scale⟩

def growth (x : Fixed) : Except RangeFault Fixed :=
  x.growthAt .standard

def power (x : Fixed) : Except RangeFault Fixed :=
  x.powerAt .standard

end Fixed

end PriceFeed
