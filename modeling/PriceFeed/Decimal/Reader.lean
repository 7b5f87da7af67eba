/-
  PriceFeed — decimals from text.

  A plain decimal is an optional sign and digits with at most one point;
  underscores may stand after the first digit.  A scientific one is a plain
  decimal, `e` or `E`, and an exponent.

  Digits are taken in order, and at most 28 of them after the point.  What
  follows the last one that fits is rounded away by its first digit, five and
  more going up; the rest of it must still be digits and underscores.
-/
import PriceFeed.Decimal.Product
import PriceFeed.Text.Digits

namespace PriceFeed.Decimal

/-- What the characters read so far amount to. -/
structure Scan where
  mantissa : Nat
  scale : Nat
  /-- The point has been read. -/
  point : Bool
  /-- A digit has been read. -/
  digits : Bool
  /-- The digits have outgrown a machine word. -/
  wide : Bool

/-- Nothing has been read. -/
def Scan.start : Scan :=
  ⟨0, 0, false, false, false⟩

/-- A mantissa from here on may outgrow a machine word with its next digit. -/
def wideFrom : Nat :=
  (UInt64.size - 1) / 10 - 255

/-- A character that may stand among the digits that are rounded away. -/
def isFiller (c : Char) : Bool :=
  c.isDigit || c == '_'

/-- The parts of `m · 10^(-scale)`, rounded by the digit `c` that follows;
    `rest` comes after it. -/
def roundOff (m scale : Nat) (c : Char) (rest : List Char) : Option (Nat × Nat) := do
  let n ← if c = '_' then some 0 else Digits.digit? c
  let rounded ←
    if n < 5 then some (m, scale)
    else if m + 1 < mantissaBound then some (m + 1, scale)
    else if scale = 0 then none
    else some ((m + 5) / 10, scale - 1)
  if rest.all isFiller then some rounded else none

/-- The parts of `m · 10^(-scale)`, whose places are used up before `rest`.
    Underscores right after the last place are passed over if the digits are wide. -/
def cutOff (wide : Bool) (m scale : Nat) (rest : List Char) : Option (Nat × Nat) :=
  match if wide then rest.dropWhile (· == '_') else rest with
  | [] => some (m, scale)
  | c :: rest => roundOff m scale c rest

/-- The mantissa and the scale of an unsigned plain decimal. -/
def plainFrom : Scan → List Char → Option (Nat × Nat)
  | s, [] => if s.digits then some (s.mantissa, s.scale) else none
  | s, c :: rest =>
    match Digits.digit? c with
    | some n =>
      let m := 10 * s.mantissa + n
      if s.wide && decide (mantissaBound ≤ m) then
        if s.point then roundOff s.mantissa s.scale c rest else none
      else
        let scale := if s.point then s.scale + 1 else s.scale
        if s.point && decide (28 ≤ scale) then cutOff s.wide m scale rest
        else plainFrom ⟨m, scale, s.point, true, s.wide || decide (wideFrom ≤ m)⟩ rest
    | none =>
      if c = '.' ∧ s.point = false then plainFrom { s with point := true } rest
      else if c = '_' ∧ s.digits = true then plainFrom s rest
      else none

/-- An unsigned plain decimal, under a sign; zero has none. -/
def signed (negative : Bool) (cs : List Char) : Option Decimal := do
  let (m, scale) ← plainFrom .start cs
  ofParts? (negative && m != 0) m scale

/-- A plain decimal. -/
def plain (cs : List Char) : Option Decimal :=
  match cs with
  | '-' :: rest => signed true rest
  | '+' :: rest => signed false rest
  | _ => signed false cs

/-- The number of an exponent: digits after an optional plus sign, within 32 bits. -/
def exponent? (cs : List Char) : Option Nat := do
  let n ← Digits.value? (match cs with | '+' :: rest => rest | _ => cs)
  if n < UInt32.size then some n else none

/-- The decimal `d · 10^(-e)`; places beyond the 28th are rounded away, a half going up. -/
def scaleDown (d : Decimal) (e : Nat) : Option Decimal :=
  if 28 < e then none
  else if d.scale + e ≤ 28 then ofParts? d.negative d.mantissa (d.scale + e)
  else
    let m := halfUp d.mantissa (tenPow (d.scale + e - 28))
    ofParts? (d.negative && m != 0) m 28

/-- The decimal `d · 10^e`: the point moves while there are places, else the digits
    are multiplied out, in two steps past `10^19`. -/
def scaleUp (d : Decimal) (e : Nat) : Option Decimal :=
  if e ≤ d.scale then ofParts? d.negative d.mantissa (d.scale - e)
  else if 28 < e then none
  else do
    let first ← d.mul (tenPow (min e 19))
    let whole ← if 19 < e then first.mul (tenPow (e - 19)) else some first
    some whole.strip

/-- The letter before an exponent. -/
def isExponentMark (c : Char) : Bool :=
  c == 'e' || c == 'E'

/-- A decimal with an exponent. -/
def scientific (cs : List Char) : Option Decimal :=
  match cs.dropWhile (fun c => !isExponentMark c) with
  | [] => none
  | _ :: exponent => do
    let d ← plain (cs.takeWhile fun c => !isExponentMark c)
    match exponent with
    | '-' :: rest => scaleDown d (← exponent? rest)
    | _ => scaleUp d (← exponent? exponent)

/-- A decimal in either form. -/
def read? (cs : List Char) : Option Decimal :=
  plain cs <|> scientific cs

end PriceFeed.Decimal
