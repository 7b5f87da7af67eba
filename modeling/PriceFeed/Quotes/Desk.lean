/-
  PriceFeed — quotes being worked on (`quick_select` and `price_model_core` as calls).

  A desk holds a buffer of quotes and a journal.  Its calls reorder the buffer
  and add to the journal, also when they are refused.

  * `Desk.select` is `quick_select`: it refuses an empty buffer first, then a rank that
    there is not, and leaves the rest to `PriceFeed.select`;
  * `Desk.quartiles` is `price_model_core`: the median comes first, and every quartile is
    selected in the buffer that the selections before it have left.
-/
import PriceFeed.Journal
import PriceFeed.Quotes.Selection

namespace PriceFeed

/-- The quotes being worked on, and the events so far. -/
structure Desk where
  quotes : Array Quote
  journal : Journal

/-- A call at a desk. -/
abbrev AtDesk (α : Type) := ExceptT Fault (StateM Desk) α

namespace Desk

def record (e : Event) : AtDesk Unit :=
  modify fun desk => { desk with journal := desk.journal ++ [e] }

/-- The quote of rank `k`, counted from zero. -/
def select (k : Nat) : AtDesk Quote := do
  let quotes := (← get).quotes
  if quotes.size = 0 then throw .empty
  else if h : k < quotes.size then
    let s := PriceFeed.select quotes.toVector k h
    modify fun desk => { desk with quotes := s.quotes.toArray }
    return s.value
  else
    record (.rankOutOfRange k quotes.size)
    throw .invalid

/-- The middle quote of an odd number of them, or the mean of the middle two. -/
def median (count : Nat) : AtDesk Quote :=
  if count % 2 = 1 then select (count / 2)
  else do
    let below ← select (count / 2 - 1)
    let above ← select (count / 2)
    return Quote.average below above

/-- The quartiles of the quotes: the median, and the quotes a quarter of the way
    from either end. -/
def quartiles : AtDesk Quartiles := do
  let count := (← get).quotes.size
  if count = 0 then throw .empty
  else
    let p50 ← median count
    let p25 ← select (count / 4)
    let p75 ← select (count - 1 - count / 4)
    let found : Quartiles := ⟨p25, p50, p75⟩
    record (.quotesAggregated count found)
    return found

end Desk

end PriceFeed
