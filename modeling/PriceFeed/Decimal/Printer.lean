/-
  PriceFeed — the text of a decimal.

  A decimal is written with exactly as many places as it has: at least one
  digit before the point, and no point if there are no places.
-/
import PriceFeed.Decimal.Basic
import PriceFeed.Text.Digits

namespace PriceFeed.Decimal

/-- The characters of `m · 10^(-s)`, with `s` places. -/
def digits (m s : Nat) : List Char :=
  let ds := Digits.padded (s + 1) m
  if s = 0 then ds else ds.take (ds.length - s) ++ '.' :: ds.drop (ds.length - s)

/-- The characters of a decimal. -/
def chars (d : Decimal) : List Char :=
  if d.negative then '-' :: digits d.mantissa d.scale else digits d.mantissa d.scale

def text (d : Decimal) : String :=
  String.ofList d.chars

end PriceFeed.Decimal
