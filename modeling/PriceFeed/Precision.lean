/-
  PriceFeed — precisions (`PrecisionOrder`, its `from_u8`, `try_from` and `accuracy`).

  A precision is the number of Horner steps that the exponentials take: from
  one step, a few percent of error, to seven, about one unit of `2⁻³⁰`.  Each
  has its own coefficients; no table is derived from another.

  * `Precision.ofOrder?` finds a precision by its number of steps, and
    `ofOrder?_order` says that it finds every one;
  * `Precision.accuracy` is the promised error of both exponentials.
-/
import PriceFeed.Decimal.Basic
import PriceFeed.Fault

namespace PriceFeed

/-- The number of Horner steps of an exponential. -/
inductive Precision where
  | one
  | two
  | three
  | four
  | five
  | six
  | seven
  deriving DecidableEq

namespace Precision

def order : Precision → Nat
  | one => 1
  | two => 2
  | three => 3
  | four => 4
  | five => 5
  | six => 6
  | seven => 7

/-- The precision with `n` steps. -/
def ofOrder? : Nat → Option Precision
  | 1 => some one
  | 2 => some two
  | 3 => some three
  | 4 => some four
  | 5 => some five
  | 6 => some six
  | 7 => some seven
  | _ => none

/-- The precision with `n` steps; any other number is refused by name. -/
def ofOrder (n : Nat) : Except Fault Precision :=
  match ofOrder? n with
  | some p => .ok p
  | none => .error (.unsupportedOrder n)

/-- Every precision, the cheapest first. -/
def all : List Precision :=
  [one, two, three, four, five, six, seven]

/-- The precision of the exponentials when none is asked for. -/
def standard : Precision :=
  five

def name : Precision → String
  | one => "One"
  | two => "Two"
  | three => "Three"
  | four => "Four"
  | five => "Five"
  | six => "Six"
  | seven => "Seven"

/-- A precision as it is shown to a reader. -/
def text (p : Precision) : String :=
  s!"order {Digits.natText p.order}"

/-- A precision comes before those with more steps. -/
instance : LE Precision := ⟨fun p q => p.order ≤ q.order⟩

instance (p q : Precision) : Decidable (p ≤ q) := inferInstanceAs (Decidable (p.order ≤ q.order))

/-- The precisions of a list, the cheapest first; equal ones stay together. -/
def sort (ps : List Precision) : List Precision :=
  ps.mergeSort (fun p q => decide (p ≤ q))

theorem ofOrder?_order (p : Precision) : ofOrder? p.order = some p := by
  cases p <;> rfl

theorem order_of_ofOrder? {n : Nat} {p : Precision} (h : ofOrder? n = some p) : p.order = n := by
  unfold ofOrder? at h
  split at h <;> cases h <;> rfl

theorem mem_all (p : Precision) : p ∈ all := by
  cases p <;> decide

/-! ## Accuracy -/

/-- What a precision promises, over the arguments from zero to one. -/
structure Accuracy where
  /-- The bits of accuracy of the polynomial. -/
  bits : Decimal
  /-- The greatest relative error of `2 ^ x`. -/
  powerError : Decimal
  /-- The greatest relative error of `2 ^ -x`. -/
  decayError : Decimal

/-- The promise of each precision. -/
def accuracy : Precision → Accuracy
  | one => ⟨.positive 40 1, .positive 61 3, .positive 61 3⟩
  | two => ⟨.positive 83 1, .positive 32 4, .positive 32 4⟩
  | three => ⟨.positive 130 1, .positive 12 5, .positive 12 5⟩
  | four => ⟨.positive 176 1, .positive 50 7, .positive 50 7⟩
  | five => ⟨.positive 228 1, .positive 14 8, .positive 14 8⟩
  | six => ⟨.positive 279 1, .positive 43 10, .positive 40 10⟩
  | seven => ⟨.positive 334 1, .positive 54 11, .positive 19 10⟩

end Precision

end PriceFeed
