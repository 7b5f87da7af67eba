/-
  PriceFeed — the shrinking exponential (the kernel `Rexp2`, its `eval`).

  `Fixed.decayAt` is `eval`, the value `2 ^ -x`, and `Fixed.decay` is `rexp2`, the same
  at the standard precision.  For an argument `x = i + d / 2 ^ 30`, the chain of
  `Precision.decayTable` gives about `2 ^ 30 · 2 ^ -(d / 2 ^ 30)`, of which the low `i`
  bits are dropped.  From 64 on nothing is left.
-/
import PriceFeed.Exponential.Tables
import PriceFeed.Fixed.Basic

namespace PriceFeed

namespace Fixed

/-- The value `2 ^ -x` at a precision. -/
def decayAt (p : Precision) (x : Fixed) : Except RangeFault Fixed :=
  if x.integerPart > 63 then .ok zero
  else do
    let y ← p.decayTable.falling x.fractionPart
    return ⟨← Word.shiftRight y x.integerPart.toNat⟩

def decay (x : Fixed) : Except RangeFault Fixed :=
  x.decayAt .standard

end Fixed

end PriceFeed
