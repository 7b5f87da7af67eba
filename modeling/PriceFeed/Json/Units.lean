/-
  PriceFeed — the texts of JSON.

  A JSON text is a sequence of 16-bit units: a character below `2 ^ 16` is one
  unit, any other a pair of surrogates.  An escape may write a surrogate
  without its partner; such a text is not `wellPaired` and has no characters.
-/

namespace PriceFeed.Json

/-- The units of a text. -/
abbrev Units := List UInt16

def unitsOfChar (c : Char) : Units :=
  let n := c.toNat
  if n < 0x10000 then [UInt16.ofNat n]
  else
    [UInt16.ofNat (0xd800 + (n - 0x10000) / 0x400),
      UInt16.ofNat (0xdc00 + (n - 0x10000) % 0x400)]

def unitsOf (cs : List Char) : Units :=
  cs.flatMap unitsOfChar

/-- The first half of a pair. -/
def isHigh (u : UInt16) : Bool :=
  0xd800 ≤ u && u < 0xdc00

/-- The second half of a pair. -/
def isLow (u : UInt16) : Bool :=
  0xdc00 ≤ u && u < 0xe000

/-- Every surrogate stands in a pair. -/
def wellPaired : Units → Bool
  | [] => true
  | [u] => !isHigh u && !isLow u
  | u :: v :: rest =>
    if isHigh u then isLow v && wellPaired rest else !isLow u && wellPaired (v :: rest)

end PriceFeed.Json
