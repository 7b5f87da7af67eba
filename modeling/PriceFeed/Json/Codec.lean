/-
  PriceFeed — values of the library as JSON.

  * A fixed-point value is the integer of its word.
  * A precision is its name, or an object of one member with that name for a
    key and null for a value; it is written as the name.
  * Quartiles are an object with the integers `p25`, `p50` and `p75`, once each
    and in any order, and any other members; or an array of the three integers.
    They are written as an object, in that order.

  A key of such an object must have characters; the values of the other members
  may be anything.
-/
import PriceFeed.Fixed.Basic
import PriceFeed.Json.Value
import PriceFeed.Precision
import PriceFeed.Quotes.Basic

namespace PriceFeed

open Json

/-! ## Fixed-point values -/

def Fixed.ofJson? : Value → Option Fixed
  | .number n => n.toWord?.map Fixed.mk
  | _ => none

def Fixed.toJson (x : Fixed) : List Char :=
  Digits.ofNat x.raw.toNat

/-! ## Precisions -/

def Precision.ofName? (name : Units) : Option Precision :=
  Precision.all.find? fun p => unitsOf p.name.toList == name

def Precision.ofJson? : Value → Option Precision
  | .text name => Precision.ofName? name
  | .object [(name, .null)] => Precision.ofName? name
  | _ => none

def Precision.toJson (p : Precision) : List Char :=
  '"' :: p.name.toList ++ ['"']

/-! ## Quartiles -/

def Quote.ofJson? : Value → Option Quote
  | .number n => n.toInt64?
  | _ => none

/-- The quote of the one member with a key. -/
def Quote.ofMember? (key : String) (members : List (Units × Value)) : Option Quote :=
  match Value.valuesAt (unitsOf key.toList) members with
  | [v] => Quote.ofJson? v
  | _ => none

def Quartiles.ofJson? : Value → Option Quartiles
  | .array [a, b, c] => do
    return ⟨← Quote.ofJson? a, ← Quote.ofJson? b, ← Quote.ofJson? c⟩
  | .object members =>
    if members.all fun m => wellPaired m.1 then do
      return ⟨← Quote.ofMember? "p25" members, ← Quote.ofMember? "p50" members,
        ← Quote.ofMember? "p75" members⟩
    else none
  | _ => none

/-- A member with a quote for a value. -/
def Quote.toMember (key : String) (q : Quote) : List Char :=
  '"' :: key.toList ++ '"' :: ':' :: Digits.ofInt q.toInt

def Quartiles.toJson (q : Quartiles) : List Char :=
  '\x7b' :: Quote.toMember "p25" q.p25 ++ ',' :: Quote.toMember "p50" q.p50 ++
    ',' :: Quote.toMember "p75" q.p75 ++ ['\x7d']

/-! ## Texts -/

def Fixed.decode (cs : List Char) : Option Fixed :=
  (Value.ofChars? cs).bind Fixed.ofJson?

def Precision.decode (cs : List Char) : Option Precision :=
  (Value.ofChars? cs).bind Precision.ofJson?

def Quartiles.decode (cs : List Char) : Option Quartiles :=
  (Value.ofChars? cs).bind Quartiles.ofJson?

end PriceFeed
