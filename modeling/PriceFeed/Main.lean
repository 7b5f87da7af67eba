/-
  PriceFeed — the command line: prints the accuracy report.
-/
import PriceFeed.Report.Basic

open PriceFeed

def main : IO Unit := do
  match Report.lines with
  | .ok (lines, _) => lines.forM IO.println
  | .error fault => IO.eprintln fault.message
