/-
  PriceFeed — the tokens of JSON.

  `Token.scan` reads a text one character at a time.  Between tokens it passes
  blanks; a number and a word go on as long as their characters do, and are
  checked as a whole when they end.
-/
import PriceFeed.Json.Number
import PriceFeed.Json.Units

namespace PriceFeed.Json

/-- A lexical unit of JSON. -/
inductive Token where
  | openArray
  | closeArray
  | openObject
  | closeObject
  | comma
  | colon
  | null
  | bool (b : Bool)
  | number (n : Number)
  | text (units : Units)
  deriving DecidableEq

/-- What the scanner is in the middle of.  The characters and units read so far
    are held in reverse. -/
inductive Scanner.Mode where
  /-- Between two tokens. -/
  | between
  /-- In a number. -/
  | number (read : List Char)
  /-- In a word. -/
  | word (read : List Char)
  /-- In a text. -/
  | text (units : Units)
  /-- In a text, after a backslash. -/
  | escape (units : Units)
  /-- In a text, in the code of a unit that lacks `left` digits. -/
  | code (units : Units) (left : Nat) (value : Nat)

/-- The scanner between two characters: its mode, and the tokens so far in reverse. -/
structure Scanner where
  mode : Scanner.Mode
  tokens : List Token

namespace Scanner

/-- The blanks of JSON. -/
def isBlank (c : Char) : Bool :=
  c == ' ' || c == '\t' || c == '\n' || c == '\r'

/-- The characters that a number goes on with. -/
def isNumberPart (c : Char) : Bool :=
  c.isDigit || c == '-' || c == '+' || c == '.' || c == 'e' || c == 'E'

/-- The value of a hexadecimal digit. -/
def hexDigit? (c : Char) : Option Nat :=
  if c.isDigit then some (c.toNat - '0'.toNat)
  else if 'a' ≤ c ∧ c ≤ 'f' then some (c.toNat - 'a'.toNat + 10)
  else if 'A' ≤ c ∧ c ≤ 'F' then some (c.toNat - 'A'.toNat + 10)
  else none

/-- The unit that a backslash and a character stand for. -/
def escaped? : Char → Option UInt16
  | '"' => some 0x22
  | '\\' => some 0x5c
  | '/' => some 0x2f
  | 'b' => some 0x08
  | 'f' => some 0x0c
  | 'n' => some 0x0a
  | 'r' => some 0x0d
  | 't' => some 0x09
  | _ => none

/-- The token that a word is. -/
def word? (cs : List Char) : Option Token :=
  if cs = ['n', 'u', 'l', 'l'] then some .null
  else if cs = ['t', 'r', 'u', 'e'] then some (.bool true)
  else if cs = ['f', 'a', 'l', 's', 'e'] then some (.bool false)
  else none

/-- A character between two tokens. -/
def start (tokens : List Token) (c : Char) : Option Scanner :=
  if isBlank c then some ⟨.between, tokens⟩
  else if c == '-' || c.isDigit then some ⟨.number [c], tokens⟩
  else if c.isLower then some ⟨.word [c], tokens⟩
  else
    match c with
    | '[' => some ⟨.between, .openArray :: tokens⟩
    | ']' => some ⟨.between, .closeArray :: tokens⟩
    | '\x7b' => some ⟨.between, .openObject :: tokens⟩
    | '\x7d' => some ⟨.between, .closeObject :: tokens⟩
    | ',' => some ⟨.between, .comma :: tokens⟩
    | ':' => some ⟨.between, .colon :: tokens⟩
    | '"' => some ⟨.text [], tokens⟩
    | _ => none

/-- The tokens so far, if the text may end or another token begin here. -/
def finish (s : Scanner) : Option (List Token) :=
  match s.mode with
  | .between => some s.tokens
  | .number read => (Number.ofChars? read.reverse).map fun n => .number n :: s.tokens
  | .word read => (word? read.reverse).map fun t => t :: s.tokens
  | .text _ | .escape _ | .code _ _ _ => none

def step (s : Scanner) (c : Char) : Option Scanner :=
  match s.mode with
  | .between => start s.tokens c
  | .number read =>
    if isNumberPart c then some { s with mode := .number (c :: read) }
    else s.finish.bind fun tokens => start tokens c
  | .word read =>
    if c.isLower then some { s with mode := .word (c :: read) }
    else s.finish.bind fun tokens => start tokens c
  | .text units =>
    if c = '"' then some ⟨.between, .text units.reverse :: s.tokens⟩
    else if c = '\\' then some { s with mode := .escape units }
    else if c.toNat < 0x20 then none
    else some { s with mode := .text ((unitsOfChar c).reverse ++ units) }
  | .escape units =>
    if c = 'u' then some { s with mode := .code units 4 0 }
    else (escaped? c).map fun u => { s with mode := .text (u :: units) }
  | .code units left value =>
    (hexDigit? c).map fun v =>
      let value := 16 * value + v
      if left ≤ 1 then { s with mode := .text (UInt16.ofNat value :: units) }
      else { s with mode := .code units (left - 1) value }

end Scanner

def Token.scan (cs : List Char) : Option (List Token) := do
  let last ← cs.foldlM Scanner.step ⟨.between, []⟩
  let tokens ← last.finish
  return tokens.reverse

end PriceFeed.Json
