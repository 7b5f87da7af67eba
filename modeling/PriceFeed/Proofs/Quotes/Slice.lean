/-
  PriceFeed — searches that take nothing for granted.

  The same search as `search`, in slices of the buffer that count their own places from zero.  A
  place outside of the slice, a difference below zero or a part longer than the slice ends it without
  an answer, and so does a loop that does not end: neither loop comes with a reason why it should
  (`partial_fixpoint`).  So an answer means that none of this happens.
-/
import Mathlib
import PriceFeed.Quotes.Selection

namespace PriceFeed

/-- Some neighbouring quotes of a buffer, `size` of them from index `start` on. -/
structure Slice (n : Nat) where
  quotes : Vector Quote n
  start : Nat
  size : Nat
  le : start + size ≤ n

/-- The difference of two sizes, if it is a size. -/
def sizeSub? (a b : Nat) : Option Nat :=
  if b ≤ a then some (a - b) else none

namespace Slice

variable {n : Nat}

/-- All quotes of a buffer. -/
def whole (quotes : Vector Quote n) : Slice n :=
  ⟨quotes, 0, n, Nat.le_of_eq (Nat.zero_add n)⟩

/-- The quote at a place of the slice. -/
def get? (s : Slice n) (i : Nat) : Option Quote :=
  if h : i < s.size then
    have := s.le
    some s.quotes[s.start + i]
  else none

/-- Exchanges the quotes at two places of the slice. -/
def swap? (s : Slice n) (i j : Nat) : Option (Slice n) :=
  if h : i < s.size ∧ j < s.size then
    have := s.le
    some { s with quotes := s.quotes.swap (s.start + i) (s.start + j) }
  else none

/-- The first `m` quotes of the slice. -/
def take? (s : Slice n) (m : Nat) : Option (Slice n) :=
  if h : m ≤ s.size then
    have := s.le
    some ⟨s.quotes, s.start, m, by omega⟩
  else none

/-- All quotes of the slice but the first `m`. -/
def drop? (s : Slice n) (m : Nat) : Option (Slice n) :=
  if h : m ≤ s.size then
    have := s.le
    some ⟨s.quotes, s.start + m, s.size - m, by omega⟩
  else none

/-- Cuts the slice at a pivot, from the places of the marks on. -/
def cut? (pivot : Quote) (s : Slice n) (left right : Nat) : Option (Slice n × Nat × Nat) :=
  if left < right then do
    if (← s.get? left) < pivot then s |>.cut? pivot (left + 1) right
    else
      let last ← sizeSub? right 1
      if pivot < (← s.get? last) then s |>.cut? pivot left last
      else (← s.swap? left last) |>.cut? pivot (left + 1) last
  else some (s, left, right)
partial_fixpoint

/-- The quote at which the slice is cut. -/
def pivot? (s : Slice n) : Option Quote := do
  let last ← sizeSub? s.size 1
  return Quote.medianOfThree (← s.get? 0) (← s.get? (s.size / 2)) (← s.get? last)

/-- What a round comes to. -/
inductive Outcome (n : Nat) where
  /-- The quote wanted, and the buffer. -/
  | found (quotes : Vector Quote n) (value : Quote)
  /-- The slice to go on in, and the rank wanted in it. -/
  | narrowed (slice : Slice n) (rank : Nat)

/-- One round of a search for the quote of rank `k` of the slice. -/
def round? (s : Slice n) (k : Nat) : Option (Outcome n) := do
  if s.size = 1 then return .found s.quotes (← s.get? 0)
  else
    let pivot ← s.pivot?
    let (s', left, right) ← cut? pivot s 0 s.size
    if k < right then return .narrowed (← s'.take? right) k
    else if left = right + 1 ∧ k = right then return .found s'.quotes pivot
    else return .narrowed (← s'.drop? right) (← sizeSub? k right)

/-- Searches the slice for its quote of rank `k`. -/
def search? (s : Slice n) (k : Nat) : Option (Selection n) := do
  match ← s.round? k with
  | .found quotes value => return ⟨quotes, value, 1⟩
  | .narrowed s' k' =>
    let found ← s' |>.search? k'
    return { found with rounds := found.rounds + 1 }
partial_fixpoint

end Slice

end PriceFeed
