/-
  PriceFeed — the numbers of JSON.

  A number is a sign, whole digits without needless zeros, and a tail: a
  fraction, an exponent, both, or nothing.  Only a number without a tail is an
  integer, and of those only the negative zero is none (`Number.toInt?`).
-/
import PriceFeed.Text.Digits

namespace PriceFeed.Json

/-- A number as it is written. -/
structure Number where
  negative : Bool
  whole : Nat
  tail : List Char
  deriving DecidableEq

namespace Number

/-- At least one digit, and nothing else. -/
def isDigits (cs : List Char) : Bool :=
  !cs.isEmpty && cs.all Char.isDigit

/-- The digits before a point: no zero leads others. -/
def isWhole (cs : List Char) : Bool :=
  isDigits cs && (cs.length == 1 || cs.head? != some '0')

/-- Nothing, or `e` or `E`, an optional sign, and digits. -/
def isExponent : List Char → Bool
  | [] => true
  | mark :: '+' :: cs | mark :: '-' :: cs => (mark == 'e' || mark == 'E') && isDigits cs
  | mark :: cs => (mark == 'e' || mark == 'E') && isDigits cs

/-- An optional point with digits after it, and an optional exponent. -/
def isTail : List Char → Bool
  | '.' :: cs => isDigits (cs.takeWhile Char.isDigit) && isExponent (cs.dropWhile Char.isDigit)
  | cs => isExponent cs

/-- An unsigned number, under a sign. -/
def signed? (negative : Bool) (cs : List Char) : Option Number :=
  let whole := cs.takeWhile Char.isDigit
  let tail := cs.dropWhile Char.isDigit
  if isWhole whole && isTail tail then
    (Digits.value? whole).map fun n => ⟨negative, n, tail⟩
  else none

/-- The number that a text is. -/
def ofChars? : List Char → Option Number
  | '-' :: cs => signed? true cs
  | cs => signed? false cs

/-- The integer that a number is written as. -/
def toInt? (n : Number) : Option Int :=
  if n.tail ≠ [] then none
  else if n.negative then if n.whole = 0 then none else some (-n.whole)
  else some n.whole

/-- The word that a number is written as. -/
def toWord? (n : Number) : Option UInt64 := do
  let i ← n.toInt?
  if 0 ≤ i ∧ i.toNat < UInt64.size then some (UInt64.ofNat i.toNat) else none

/-- The signed word that a number is written as. -/
def toInt64? (n : Number) : Option Int64 := do
  let i ← n.toInt?
  if Int64.minValue.toInt ≤ i ∧ i ≤ Int64.maxValue.toInt then some (Int64.ofInt i) else none

end Number

end PriceFeed.Json
