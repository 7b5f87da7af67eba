/-
  PriceFeed — the coefficients of the exponentials (`exp2m1_table` and `rexp2_table`).

  Over the arguments `d / 2 ^ 30` from zero to one,

  * `Precision.growthTable` gives about `2 ^ 64 · (2 ^ (d / 2 ^ 30) - 1)` as a
    rising chain, whose last step is a bare multiplication;
  * `Precision.decayTable` gives about `2 ^ 30 · 2 ^ -(d / 2 ^ 30)` as a falling
    chain, whose last step takes the product from `2 ^ 30`.

  Each is the polynomial of its degree with the least mean square error that
  agrees at both ends, with its coefficients rounded to integers.
-/
import PriceFeed.Horner.Basic
import PriceFeed.Precision

namespace PriceFeed

namespace Precision

/-- The coefficients of `2 ^ x - 1`. -/
def growthTable : Precision → Horner
  | one => ⟨0x400000000, [⟨0, 0⟩]⟩
  | two => ⟨0x2c029d07d, [⟨0x29feb17c1, 31⟩, ⟨0, 0⟩]⟩
  | three => ⟨0x288319c3e, [⟨0x1cd1735e6, 32⟩, ⟨0x2c86e3185, 31⟩, ⟨0, 0⟩]⟩
  | four =>
    ⟨0x38100ce15, [⟨0x1a7f168b9, 33⟩, ⟨0x1eeba70d4, 32⟩, ⟨0x2c5a09747, 31⟩, ⟨0, 0⟩]⟩
  | five =>
    ⟨0x3e1a2fa1b, [⟨0x24a7ddfee, 33⟩, ⟨0x1c994ed30, 33⟩, ⟨0x1ebd13698, 32⟩,
      ⟨0x2c5c9fe11, 31⟩, ⟨0, 0⟩]⟩
  | six =>
    ⟨0x3959e8bc0, [⟨0x28987867f, 33⟩, ⟨0x27aac1b83, 33⟩, ⟨0x1c67f6aa0, 33⟩,
      ⟨0x1ebfde70a, 32⟩, ⟨0x2c5c8510d, 31⟩, ⟨0, 0⟩]⟩
  | seven =>
    ⟨0x2d6e5bd1d, [⟨0x257992e8b, 33⟩, ⟨0x2c02265a3, 33⟩, ⟨0x27607eb13, 33⟩,
      ⟨0x1c6b30b08, 33⟩, ⟨0x1ebfbcc25, 32⟩, ⟨0x2c5c8604f, 31⟩, ⟨0, 0⟩]⟩

/-- The coefficients of `2 ^ -x`. -/
def decayTable : Precision → Horner
  | one => ⟨0x200000000, [⟨0x40000000, 34⟩]⟩
  | two => ⟨0x2c029d07d, [⟨0x2b00a741f, 32⟩, ⟨0x40000000, 34⟩]⟩
  | three => ⟨0x288319c3e, [⟨0x3b33c6b15, 32⟩, ⟨0x2c44c0101, 32⟩, ⟨0x40000000, 34⟩]⟩
  | four =>
    ⟨0x38100ce16, [⟨0x36871cfc4, 33⟩, ⟨0x3d4dfa602, 32⟩, ⟨0x2c5b2ce21, 32⟩, ⟨0x40000000, 34⟩]⟩
  | five =>
    ⟨0x3e1a2f97e, [⟨0x25bc1de09, 34⟩, ⟨0x38a155436, 32⟩, ⟨0x3d7c8e03d, 32⟩,
      ⟨0x2c5c78186, 32⟩, ⟨0x40000000, 34⟩]⟩
  | six =>
    ⟨0x3959e0dfb, [⟨0x29cdf1eff, 34⟩, ⟨0x273d8f899, 33⟩, ⟨0x38d2ad669, 32⟩,
      ⟨0x3d7f590ad, 32⟩, ⟨0x2c5c85808, 32⟩, ⟨0x40000000, 34⟩]⟩
  | seven =>
    ⟨0x2d6cd448b, [⟨0x269cc5254, 34⟩, ⟨0x2b82bc124, 33⟩, ⟨0x2762b03ae, 33⟩,
      ⟨0x38d5e75bc, 32⟩, ⟨0x3d7f7ab76, 32⟩, ⟨0x2c5c85fa8, 32⟩, ⟨0x40000000, 34⟩]⟩

theorem growthTable_order (p : Precision) : p.growthTable.order = p.order := by
  cases p <;> rfl

theorem decayTable_order (p : Precision) : p.decayTable.order = p.order := by
  cases p <;> rfl

end Precision

end PriceFeed
