/-
  PriceFeed — JSON by its grammar.

  What a JSON text is, without a word on how it is read: no function of the scanner or the
  builder stands in a definition here.

  * `Blank`, `HexDigit`, `Escape`: the characters that stand for something else;
  * `Number.Tail`: what may follow the whole digits of a number, a fraction and an `Exponent`;
  * `Lexeme`: the characters of one token.  Only a text has more than one spelling, for its
    units may be escaped (`Quoted`);
  * `Spells`: the lexemes of some tokens in order, with blanks before, between and after
    them, or none; a number or a word ends where the next character could not go on with it
    (`Token.GoesOn`);
  * `Value.tokens`: the tokens of a value, of which it has one list only;
  * `Holds`: a text holds a value if it spells the tokens of the value.
-/
import PriceFeed.Json.Value

namespace PriceFeed.Json

/-! ## Characters -/

/-- The blanks. -/
inductive Blank : Char → Prop
  | space : Blank ' '
  | tab : Blank '\t'
  | newline : Blank '\n'
  | carriageReturn : Blank '\r'

/-- The hexadecimal digit of a number below 16, as a small or a capital letter. -/
def HexDigit (c : Char) (v : Nat) : Prop :=
  v < 16 ∧ (c = Nat.digitChar v ∨ c = (Nat.digitChar v).toUpper)

/-- The characters that follow a backslash, and the units that the two stand for. -/
inductive Escape : Char → UInt16 → Prop
  | quote : Escape '"' 0x22
  | backslash : Escape '\\' 0x5c
  | slash : Escape '/' 0x2f
  | backspace : Escape 'b' 0x08
  | formFeed : Escape 'f' 0x0c
  | newline : Escape 'n' 0x0a
  | carriageReturn : Escape 'r' 0x0d
  | tab : Escape 't' 0x09

/-! ## Numbers -/

namespace Number

/-- The characters of numbers. -/
def Part (c : Char) : Prop :=
  c.isDigit = true ∨ c ∈ ['-', '+', '.', 'e', 'E']

/-- A row of digits, and of at least one. -/
def Row (cs : List Char) : Prop :=
  cs ≠ [] ∧ ∀ c ∈ cs, c.isDigit = true

/-- Nothing, or a mark, digits, and a sign between them or none. -/
inductive Exponent : List Char → Prop
  | absent : Exponent []
  | bare {mark ds} : mark = 'e' ∨ mark = 'E' → Row ds → Exponent (mark :: ds)
  | plus {mark ds} : mark = 'e' ∨ mark = 'E' → Row ds → Exponent (mark :: '+' :: ds)
  | minus {mark ds} : mark = 'e' ∨ mark = 'E' → Row ds → Exponent (mark :: '-' :: ds)

/-- What follows the whole digits: an exponent, and before it a point and digits or nothing. -/
inductive Tail : List Char → Prop
  | exponent {cs} : Exponent cs → Tail cs
  | fraction {ds cs} : Row ds → Exponent cs → Tail ('.' :: ds ++ cs)

/-- A number as it is written. -/
def toChars (n : Number) : List Char :=
  (if n.negative then ['-'] else []) ++ Digits.ofNat n.whole ++ n.tail

/-- An integer as a number: without a fraction or an exponent. -/
def ofInt (i : Int) : Number :=
  ⟨i < 0, i.natAbs, []⟩

end Number

/-! ## Tokens -/

/-- What stands between two quotes, and the units that it stands for: characters as they are,
    if they are no quote, backslash or control character; a backslash and what may follow it; or
    a backslash, `u` and the four digits of a unit. -/
inductive Quoted : Units → List Char → Prop
  | nil : Quoted [] []
  | plain {c us cs} : c ≠ '"' → c ≠ '\\' → 0x20 ≤ c.toNat → Quoted us cs →
    Quoted (unitsOfChar c ++ us) (c :: cs)
  | escape {c u us cs} : Escape c u → Quoted us cs → Quoted (u :: us) ('\\' :: c :: cs)
  | code {a b c d i j k l us cs} : HexDigit a i → HexDigit b j → HexDigit c k → HexDigit d l →
    Quoted us cs → Quoted (UInt16.ofNat (0x1000 * i + 0x100 * j + 0x10 * k + l) :: us)
      ('\\' :: 'u' :: a :: b :: c :: d :: cs)

/-- The characters of a token. -/
inductive Lexeme : Token → List Char → Prop
  | openArray : Lexeme .openArray ['[']
  | closeArray : Lexeme .closeArray [']']
  | openObject : Lexeme .openObject ['\x7b']
  | closeObject : Lexeme .closeObject ['\x7d']
  | comma : Lexeme .comma [',']
  | colon : Lexeme .colon [':']
  | null : Lexeme .null ['n', 'u', 'l', 'l']
  | true : Lexeme (.bool true) ['t', 'r', 'u', 'e']
  | false : Lexeme (.bool false) ['f', 'a', 'l', 's', 'e']
  | number {n : Number} : Number.Tail n.tail → Lexeme (.number n) n.toChars
  | text {us cs} : Quoted us cs → Lexeme (.text us) ('"' :: cs ++ ['"'])

/-- The characters that would go on with a token, were they to follow it. -/
def Token.GoesOn : Token → Char → Prop
  | .number _, c => Number.Part c
  | .null, c | .bool _, c => c.isLower = true
  | _, _ => False

/-- The texts that tokens are spelled by. -/
inductive Spells : List Token → List Char → Prop
  | nil : Spells [] []
  | blank {c ts cs} : Blank c → Spells ts cs → Spells ts (c :: cs)
  | token {t w ts cs} : Lexeme t w → (∀ c ∈ cs.head?, ¬ t.GoesOn c) → Spells ts cs →
    Spells (t :: ts) (w ++ cs)

/-! ## Values -/

theorem Value.sizeOf_item_lt {v : Value} {items : List Value} (h : v ∈ items) :
    sizeOf v < sizeOf (Value.array items) := by
  have := List.sizeOf_lt_of_mem h
  rw [Value.array.sizeOf_spec]
  omega

theorem Value.sizeOf_member_lt {m : Units × Value} {members : List (Units × Value)}
    (h : m ∈ members) : sizeOf m.2 < sizeOf (Value.object members) := by
  have := List.sizeOf_lt_of_mem h
  rw [Prod.mk.sizeOf_spec] at this
  rw [Value.object.sizeOf_spec]
  omega

/-- The tokens of a value; between items, and between members, there is a comma. -/
def Value.tokens : Value → List Token
  | .null => [.null]
  | .bool b => [.bool b]
  | .number n => [.number n]
  | .text us => [.text us]
  | .array items => .openArray :: [Token.comma].intercalate (items.map Value.tokens) ++ [.closeArray]
  | .object members =>
    .openObject :: [Token.comma].intercalate
      (members.map fun m => .text m.1 :: .colon :: m.2.tokens) ++ [.closeObject]
termination_by v => sizeOf v
decreasing_by
  · next h => exact Value.sizeOf_item_lt h
  · next h => exact Value.sizeOf_member_lt h

/-- A text holds a value if it spells the tokens of the value. -/
def Holds (cs : List Char) (v : Value) : Prop :=
  Spells v.tokens cs

end PriceFeed.Json
