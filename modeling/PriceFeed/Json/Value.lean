/-
  PriceFeed — the values of JSON.

  `Value.ofTokens?` builds a value from tokens, one at a time.  `Build` is what
  has been built: the containers that are still open, the innermost first, and
  what may come next.
-/
import PriceFeed.Json.Token

namespace PriceFeed.Json

/-- A value of JSON.  The members of an object keep their order, and a key may
    come more than once. -/
inductive Value where
  | null
  | bool (b : Bool)
  | number (n : Number)
  | text (units : Units)
  | array (items : List Value)
  | object (members : List (Units × Value))

/-- A container that is still open.  What it holds so far is kept in reverse. -/
inductive Build.Frame where
  /-- An array. -/
  | array (items : List Value)
  /-- An object, and the key whose value is being built. -/
  | object (members : List (Units × Value)) (key : Units)

/-- The open containers, and what may come next. -/
inductive Build where
  /-- A value. -/
  | value (frames : List Build.Frame)
  /-- The first item of an array, or its end. -/
  | item (frames : List Build.Frame)
  /-- The first key of an object, or its end. -/
  | member (frames : List Build.Frame)
  /-- The next key of an object. -/
  | key (frames : List Build.Frame) (members : List (Units × Value))
  /-- The colon after a key. -/
  | colon (frames : List Build.Frame) (members : List (Units × Value)) (key : Units)
  /-- What follows a value: a comma or the end of the innermost container. -/
  | built (frames : List Build.Frame) (v : Value)

namespace Build

/-- The first token of a value. -/
def start (frames : List Frame) : Token → Option Build
  | .null => some (.built frames .null)
  | .bool b => some (.built frames (.bool b))
  | .number n => some (.built frames (.number n))
  | .text units => some (.built frames (.text units))
  | .openArray => some (.item frames)
  | .openObject => some (.member frames)
  | .closeArray | .closeObject | .comma | .colon => none

def step : Build → Token → Option Build
  | .value frames, t => start frames t
  | .item frames, .closeArray => some (.built frames (.array []))
  | .item frames, t => start (.array [] :: frames) t
  | .member frames, .closeObject => some (.built frames (.object []))
  | .member frames, .text k => some (.colon frames [] k)
  | .key frames members, .text k => some (.colon frames members k)
  | .colon frames members k, .colon => some (.value (.object members k :: frames))
  | .built (.array items :: frames) v, .comma => some (.value (.array (v :: items) :: frames))
  | .built (.array items :: frames) v, .closeArray =>
    some (.built frames (.array (v :: items).reverse))
  | .built (.object members k :: frames) v, .comma => some (.key frames ((k, v) :: members))
  | .built (.object members k :: frames) v, .closeObject =>
    some (.built frames (.object ((k, v) :: members).reverse))
  | _, _ => none

/-- The value, if it is complete and nothing is open. -/
def finish : Build → Option Value
  | .built [] v => some v
  | _ => none

end Build

def Value.ofTokens? (ts : List Token) : Option Value := do
  let last ← ts.foldlM Build.step (.value [])
  last.finish

/-- The value that a text holds, blanks around it aside. -/
def Value.ofChars? (cs : List Char) : Option Value := do
  Value.ofTokens? (← Token.scan cs)

/-- The values of the members of an object that have a key, in order. -/
def Value.valuesAt (key : Units) (members : List (Units × Value)) : List Value :=
  (members.filter fun m => m.1 == key).map Prod.snd

end PriceFeed.Json
