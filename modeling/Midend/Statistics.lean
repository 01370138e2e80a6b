import Midend.Binary64
import Midend.Event

/-! # Statistics

Counts of what was changed, taken from a log, and their text with the number of rounds and the time
spent. -/

namespace Midend

/-- Counts of what was changed. -/
structure Statistics where
  /-- Functions whose code was changed. -/
  functionsTransformed : Nat := 0
  /-- Instructions replaced by constants. -/
  constantsFolded : Nat := 0
  /-- Operands and results taken from earlier ones. -/
  valuesReused : Nat := 0
  /-- Merges added. -/
  phisInserted : Nat := 0
  /-- Merges replaced. -/
  phisSimplified : Nat := 0
  /-- Instructions removed. -/
  instructionsRemoved : Nat := 0
  /-- Blocks removed. -/
  blocksRemoved : Nat := 0
  /-- Variables merged. -/
  copiesCoalesced : Nat := 0
  /-- Warnings. -/
  warnings : Nat := 0
  /-- Errors. -/
  errors : Nat := 0
  /-- Rounds of passes. -/
  iterations : Nat := 0
  /-- Time spent, in nanoseconds. -/
  nanoseconds : Nat := 0
  deriving DecidableEq, Repr

namespace Statistics

/-- The counts of a log. -/
def ofLog (log : Log) : Statistics where
  functionsTransformed := log.functionsAffected
  constantsFolded := log.countKind .constantFolded
  valuesReused := log.countKind .copyPropagated + log.countKind .expressionReused
  phisInserted := log.countKind .phiInserted
  phisSimplified := log.countKind .phiSimplified
  instructionsRemoved := log.countKind .instructionRemoved
  blocksRemoved := log.countKind .blockRemoved
  copiesCoalesced := log.countKind .copyCoalesced
  warnings := log.countKind .warning
  errors := log.countKind .error

/-- A quotient with two decimal places, a half going to the even neighbour. -/
def twoPlaces (numerator denominator : Nat) : String :=
  let hundredths := Binary64.roundHalfEven (numerator * 100) denominator
  let fraction := toString (hundredths % 100)
  toString (hundredths / 100) ++ "." ++ (if fraction.length < 2 then "0" else "") ++ fraction

/-- A time span in the largest unit that it reaches, with two decimal places. -/
def renderTime (nanoseconds : Nat) : String :=
  if 1000000000 ≤ nanoseconds then twoPlaces nanoseconds 1000000000 ++ "s"
  else if 1000000 ≤ nanoseconds then twoPlaces nanoseconds 1000000 ++ "ms"
  else if 1000 ≤ nanoseconds then twoPlaces nanoseconds 1000 ++ "µs"
  else twoPlaces nanoseconds 1 ++ "ns"

/-- The counts with their names, in the order of their text. -/
def parts (statistics : Statistics) : List (Nat × String) :=
  [ (statistics.functionsTransformed, "functions"),
    (statistics.constantsFolded, "constants folded"),
    (statistics.valuesReused, "values reused"),
    (statistics.phisInserted, "phis inserted"),
    (statistics.phisSimplified, "phis simplified"),
    (statistics.instructionsRemoved, "instructions removed"),
    (statistics.blocksRemoved, "blocks removed"),
    (statistics.copiesCoalesced, "copies coalesced"),
    (statistics.warnings, "warnings"),
    (statistics.errors, "errors") ]

/-- The text of the counts: those that are not zero, and the rounds with the time spent. -/
def render (statistics : Statistics) : String :=
  let present := statistics.parts.filter fun part => part.1 ≠ 0
  let changes :=
    if present.isEmpty then "no changes"
    else ", ".intercalate (present.map fun part => toString part.1 ++ " " ++ part.2)
  let time :=
    if statistics.nanoseconds = 0 then "" else ", " ++ renderTime statistics.nanoseconds
  if statistics.iterations = 0 then changes
  else changes ++ " (" ++ toString statistics.iterations ++ " iterations" ++ time ++ ")"

end Statistics

end Midend
