/-
  PriceFeed — why a call is refused.

  Every fallible call of the library answers in `Except Fault`.  The fault is
  the cause; `Fault.message` is its wording.
-/
import PriceFeed.Text.Digits

namespace PriceFeed

/-- The cause of a refused call. -/
inductive Fault where
  /-- The result is larger than the largest fixed-point value. -/
  | overflow
  /-- The result would need a fraction finer than `2⁻³⁰`. -/
  | inexact
  /-- The argument is malformed, negative, or outside its range. -/
  | invalid
  /-- There is no table of coefficients with this many steps. -/
  | unsupportedOrder (order : Nat)
  /-- There are no quotes to choose from. -/
  | empty
  deriving DecidableEq

def Fault.message : Fault → String
  | overflow => "arithmetic overflow: result exceeded maximum value"
  | inexact => "precision loss: conversion would lose significant digits"
  | invalid => "invalid input: could not parse value"
  | unsupportedOrder order =>
    s!"unsupported precision order {Digits.natText order} (expected 1..=7)"
  | empty => "empty input: at least one value required"

end PriceFeed
