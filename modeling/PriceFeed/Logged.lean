/-
  PriceFeed — calls that record why they were refused.

  Each answers as the call that it is named for, and adds an event when the
  answer is the refusal that the event tells of: `ofOrderLogged` is `try_from` for
  precisions, `ofDecimalLogged` is `from_decimal`.
-/
import PriceFeed.Fixed.Decimal
import PriceFeed.Journal
import PriceFeed.Precision

namespace PriceFeed

/-- As `Precision.ofOrder`, but it records a number of steps without a table. -/
def Precision.ofOrderLogged (n : Nat) : Logged Precision := do
  match ofOrder n with
  | .ok p => return p
  | .error fault =>
    record (.orderRejected n)
    throw fault

/-- As `Fixed.ofDecimal`, but it records a decimal that is no multiple of `2⁻³⁰`. -/
def Fixed.ofDecimalLogged (d : Decimal) : Logged Fixed := do
  match ofDecimal d with
  | .ok x => return x
  | .error fault =>
    if fault = .inexact then record (.decimalRefused d)
    throw fault

end PriceFeed
