/-
  PriceFeed — the exponentials in other number systems.

  The formulas of `Fixed.growthAt`, `Fixed.powerAt` and `Fixed.decayAt`, in words
  that wrap around and in integers without a bound.  Where no 64-bit operation
  leaves the word, all three agree.
-/
import Mathlib
import PriceFeed.Exponential.Decay
import PriceFeed.Exponential.Growth
import PriceFeed.Horner.Exact

namespace PriceFeed.Fixed

/-! ## Words that wrap around -/

def growthWrapping (p : Precision) (x : Fixed) : Fixed :=
  if x.raw > growthLimit then greatest
  else
    let y := p.growthTable.risingWrapping x.fractionPart
    let s := 34 - x.integerPart
    ⟨((y + (1 <<< (s - 1))) >>> s) + (1 <<< (64 - s)) - scale⟩

def powerWrapping (p : Precision) (x : Fixed) : Fixed :=
  if x.raw > growthLimit then greatest else ⟨(x.growthWrapping p).raw + scale⟩

def decayWrapping (p : Precision) (x : Fixed) : Fixed :=
  if x.integerPart > 63 then zero
  else ⟨p.decayTable.fallingWrapping x.fractionPart >>> x.integerPart⟩

/-! ## Integers -/

def growthFloor (p : Precision) (x : Fixed) : Int :=
  if x.raw > growthLimit then 2 ^ 64 - 1
  else
    let y := p.growthTable.risingFloor x.fractionPart.toNat
    let s := 34 - x.integerPart.toNat
    (y + 2 ^ (s - 1)) / 2 ^ s + 2 ^ (64 - s) - 2 ^ 30

def powerFloor (p : Precision) (x : Fixed) : Int :=
  if x.raw > growthLimit then 2 ^ 64 - 1 else x.growthFloor p + 2 ^ 30

def decayFloor (p : Precision) (x : Fixed) : Int :=
  if x.integerPart > 63 then 0
  else p.decayTable.fallingFloor x.fractionPart.toNat / 2 ^ x.integerPart.toNat

end PriceFeed.Fixed
