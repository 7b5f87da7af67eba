/-
  PriceFeed — the events that calls leave behind.

  A journal holds the events of the calls so far, the oldest first.  An event
  has a level, a message and fields; `Event.fields` lists them by name.
-/
import PriceFeed.Decimal.Printer
import PriceFeed.Fault
import PriceFeed.Quotes.Basic

namespace PriceFeed

/-- How much an event matters: a `trace` matters less than a `debug`. -/
inductive Level where
  | debug
  | trace
  deriving DecidableEq

def Level.name : Level → String
  | debug => "DEBUG"
  | trace => "TRACE"

/-- Something worth recording. -/
inductive Event where
  /-- A precision was asked for that has no table. -/
  | orderRejected (order : Nat)
  /-- A rank was asked for that is not below the number of quotes. -/
  | rankOutOfRange (rank count : Nat)
  /-- The quartiles of some quotes were told. -/
  | quotesAggregated (count : Nat) (quartiles : Quartiles)
  /-- A decimal was refused because it is no multiple of `2⁻³⁰`. -/
  | decimalRefused (decimal : Decimal)
  deriving DecidableEq

namespace Event

def level : Event → Level
  | orderRejected _ | quotesAggregated _ _ => .debug
  | rankOutOfRange _ _ | decimalRefused _ => .trace

def message : Event → String
  | orderRejected _ => "rejected precision order"
  | rankOutOfRange _ _ => "selection index out of range"
  | quotesAggregated _ _ => "aggregated quotes"
  | decimalRefused _ => "decimal is not a multiple of 2^-30"

/-- The fields of an event and their texts, in the order of their names. -/
def fields : Event → List (String × String)
  | orderRejected order => [("order", Digits.natText order)]
  | rankOutOfRange rank count => [("k", Digits.natText rank), ("len", Digits.natText count)]
  | quotesAggregated count q =>
    [("cnt", Digits.natText count), ("p25", q.p25.text), ("p50", q.p50.text),
      ("p75", q.p75.text)]
  | decimalRefused d => [("value", d.text)]

end Event

/-- The events so far, the oldest first. -/
abbrev Journal := List Event

/-- A call that may be refused and that adds to a journal either way. -/
abbrev Logged (α : Type) := ExceptT Fault (StateM Journal) α

def record (e : Event) : Logged Unit :=
  modify (· ++ [e])

end PriceFeed
