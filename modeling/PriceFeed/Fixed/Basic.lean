/-
  PriceFeed — fixed-point values (`Fxp`, its `split`, `join`, `from_integer` and
  `from_parts`).

  A `Fixed` is an unsigned word `raw` that stands for `raw / 2 ^ 30`: 34 bits
  before the point and 30 after it.  `split` gives the two parts; `join` puts such
  parts together, dropping whatever does not fit, and `ofParts` refuses it instead.
-/
import PriceFeed.Fault

namespace PriceFeed

/-- A number with 34 integer bits and 30 fraction bits. -/
structure Fixed where
  raw : UInt64
  deriving DecidableEq

namespace Fixed

def fracBits : UInt64 := 30

def intBits : UInt64 := 64 - fracBits

/-- The word of the number one. -/
def scale : UInt64 := 1 <<< fracBits

/-- The number that every word is divided by: `2 ^ 30`. -/
def denominator : Nat := 1073741824

theorem denominator_pos : 0 < denominator := by decide

theorem toNat_scale : scale.toNat = denominator :=
  rfl

/-- The bits after the point. -/
def fracMask : UInt64 := scale - 1

def zero : Fixed := ⟨0⟩

def one : Fixed := ⟨scale⟩

/-- The greatest value; also the answer of an exponential past its range. -/
def greatest : Fixed := ⟨0xffffffffffffffff⟩

instance : Inhabited Fixed := ⟨zero⟩

instance : LE Fixed := ⟨fun x y => x.raw ≤ y.raw⟩

instance (x y : Fixed) : Decidable (x ≤ y) := inferInstanceAs (Decidable (x.raw ≤ y.raw))

instance : Max Fixed := ⟨fun x y => if x ≤ y then y else x⟩

instance : Min Fixed := ⟨fun x y => if x ≤ y then x else y⟩

/-! ## Parts -/

/-- The bits before the point. -/
def integerPart (x : Fixed) : UInt64 :=
  x.raw >>> fracBits

/-- The bits after the point. -/
def fractionPart (x : Fixed) : UInt64 :=
  x.raw &&& fracMask

def split (x : Fixed) : UInt64 × UInt64 :=
  (x.integerPart, x.fractionPart)

/-- The value with these parts; bits that do not fit a part are dropped. -/
def join (i d : UInt64) : Fixed :=
  ⟨(i <<< fracBits) ||| (d &&& fracMask)⟩

/-- An integer as a value, if it has at most 34 bits. -/
def ofInteger (i : UInt64) : Except Fault Fixed :=
  if i >>> intBits = 0 then .ok ⟨i <<< fracBits⟩ else .error .overflow

/-- The value with these parts, if both fit; the fraction is looked at first. -/
def ofParts (i d : UInt64) : Except Fault Fixed :=
  if d > fracMask then .error .invalid
  else do
    let whole ← ofInteger i
    return ⟨whole.raw ||| d⟩

end Fixed

end PriceFeed
