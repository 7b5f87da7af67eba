/-
  PriceFeed — the accuracy report.

  For every precision, the report sets the promised errors of `2 ^ x` and
  `2 ^ -x` beside the greatest ones met at samples of the arguments below one.
  A few values at the standard precision and the quartiles of some quotes
  follow.
-/
import PriceFeed.Exponential.Decay
import PriceFeed.Exponential.Growth
import PriceFeed.Fixed.Decimal
import PriceFeed.Quotes.Desk
import PriceFeed.Report.Float

namespace PriceFeed.Report

/-- A text in a column: blanks fill it up on the right. -/
def columnLeft (width : Nat) (cs : List Char) : List Char :=
  cs ++ List.replicate (width - cs.length) ' '

/-- A text in a column: blanks fill it up on the left. -/
def columnRight (width : Nat) (cs : List Char) : List Char :=
  List.replicate (width - cs.length) ' ' ++ cs

/-- A row of the table: the order, the bits, and the four errors. -/
def row (order bits : List Char) (errors : List (List Char)) : String :=
  String.ofList
    (columnLeft 8 order ++ ' ' :: columnRight 6 bits ++
      errors.flatMap fun e => ' ' :: columnRight 14 e)

def heads : String :=
  row "order".toList "bits".toList
    ["exp2 doc".toList, "exp2 sampled".toList, "rexp2 doc".toList, "rexp2 sampled".toList]

/-! ## Samples -/

/-- The step from one sample to the next. -/
def sampleStep : Nat := 65537

/-- The samples: the multiples of the step below one. -/
def samples : List Fixed :=
  (List.range ((Fixed.scale.toNat + sampleStep - 1) / sampleStep)).map fun j =>
    ⟨UInt64.ofNat (sampleStep * j)⟩

def toFloat (x : Fixed) : Float :=
  x.raw.toFloat / Fixed.scale.toFloat

/-- The greatest relative error of a function at the samples. -/
def sampledError (f : Fixed → Except RangeFault Fixed) (exact : Float → Float) :
    Except RangeFault Float :=
  samples.foldlM (fun worst x => do
    let got := toFloat (← f x)
    let want := exact (toFloat x)
    let error := (got - want).abs / want
    return if worst < error then error else worst) 0.0

/-! ## Lines -/

def precisionRow (p : Precision) : Except RangeFault String := do
  let power ← sampledError (Fixed.powerAt p) Float.exp2
  let decay ← sampledError (Fixed.decayAt p) fun x => (-x).exp2
  return row (Digits.ofNat p.order) (fixedPlaces 1 p.accuracy.bits.toFloat)
    [scientific p.accuracy.powerError.toFloat, scientific power,
      scientific p.accuracy.decayError.toFloat, scientific decay]

def quotes : Array Quote :=
  #[50010, 49990, 50000, 50005, 51500, 49995]

/-- The line that tells the quartiles, or why there are none. -/
def quartilesLine : Except Fault Quartiles → String
  | .ok q => s!"p25={q.p25.text} p50={q.p50.text} p75={q.p75.text}"
  | .error fault => s!"aggregation failed: {fault.message}"

/-- The lines before the quotes are aggregated. -/
def accuracyLines : Except RangeFault (List String) := do
  let rows ← Precision.all.mapM precisionRow
  let half : Fixed := ⟨Fixed.scale / 2⟩
  let root ← half.power
  let inverseRoot ← half.decay
  let past ← Fixed.growth ⟨growthLimit + 1⟩
  return ["=== Fixed-Point Exponential Precision Report ===", "",
    s!"Compiled order: {Precision.standard.text}", "", heads] ++ rows ++
    ["", s!"2^0.5 at the compiled order: {root.text}",
      s!"2^-0.5 at the compiled order: {inverseRoot.text}",
      s!"exp2m1_fxp(max + 1) = {String.ofList (Digits.hex past.raw.toNat)}", "",
      "Aggregating quotes..."]

/-- The lines of the report, and the events on the way. -/
def lines : Except RangeFault (List String × Journal) := do
  let accuracy ← accuracyLines
  let (found, desk) := Desk.quartiles.run.run ⟨quotes, []⟩
  return (accuracy ++ [quartilesLine found, "", "=== Report Complete ==="], desk.journal)

end PriceFeed.Report
