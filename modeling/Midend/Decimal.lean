import Midend.Binary64

/-! # Decimal text of floating-point numbers

The shortest decimal that reads back as a given number, and its layout as text. Of the decimals
with the fewest digits the one nearest to the number is taken; a `Decimal.Layout` then decides
which of two equally near ones, where positional notation ends and how an exponent is written. -/

namespace Midend

/-- A decimal `digits * 10 ^ exponent`. -/
structure Decimal where
  /-- The digits, read as one integer. -/
  digits : Nat
  /-- The power of ten. -/
  exponent : Int
  deriving DecidableEq, Repr

namespace Decimal

/-- The number of decimal digits of a natural number. -/
def digitCount (value : Nat) : Nat := (Nat.toDigits 10 value).length

/-- The power of ten of the leading digit of `numerator / denominator`, which is positive. -/
def leadingPower (numerator denominator : Nat) : Int :=
  if denominator ≤ numerator then (digitCount (numerator / denominator) : Int) - 1
  else -(digitCount ((denominator + numerator - 1) / numerator - 1) : Int)

/-- Removes trailing zeros from the digits, moving them to the exponent. -/
def trimZeros : (budget : Nat) → Decimal → Decimal
  | 0, decimal => decimal
  | budget + 1, decimal =>
    if decimal.digits ≠ 0 ∧ decimal.digits % 10 = 0 then
      trimZeros budget ⟨decimal.digits / 10, decimal.exponent + 1⟩
    else decimal

/-- The reals that round to a number: `value`, `low` and `high` over one denominator, and whether
the ends belong to it. -/
structure Interval where
  /-- Numerator of the number itself. -/
  value : Nat
  /-- Numerator of the lower end. -/
  low : Nat
  /-- Numerator of the upper end. -/
  high : Nat
  /-- The common denominator. -/
  denominator : Nat
  /-- Whether the ends round to the number too. -/
  closed : Bool

/-- The rounding interval of a finite number. The gap below a power of two is half the gap above
it, except at the smallest exponent. -/
def Interval.ofBinary (number : Binary64) : Interval :=
  let quarter := number.significand * 4
  let below := if number.fractionField = 0 ∧ 1 < number.exponentField then 1 else 2
  let power := number.scale - 2
  let factor := Nat.pow 2 power.toNat
  { value := quarter * factor
    low := (quarter - below) * factor
    high := (quarter + 2) * factor
    denominator := Nat.pow 2 (-power).toNat
    closed := number.significand % 2 == 0 }

/-- Whether a decimal lies in a rounding interval. -/
def Interval.contains (interval : Interval) (decimal : Decimal) : Bool :=
  let point := decimal.digits * Nat.pow 10 decimal.exponent.toNat * interval.denominator
  let unit := Nat.pow 10 (-decimal.exponent).toNat
  let low := interval.low * unit
  let high := interval.high * unit
  if interval.closed then low ≤ point && point ≤ high else low < point && point < high

/-- Which of two equally near decimals is taken. -/
inductive Tie where
  /-- The larger one. -/
  | up
  /-- The one with an even last digit. -/
  | even
  deriving DecidableEq, Repr

/-- Whether `numerator / denominator` is taken to the integer below it rather than the one above. -/
def Tie.roundsDown (tie : Tie) (numerator denominator : Nat) : Bool :=
  let twice := 2 * (numerator % denominator)
  twice < denominator || twice == denominator && tie == .even && numerator / denominator % 2 == 0

/-- The decimal of `count` digits in the interval that is nearest to the number, if there is one.
Only the number's two neighbours on the grid of such decimals can be. -/
def Interval.nearest? (interval : Interval) (tie : Tie) (leading : Int) (count : Nat) :
    Option Decimal :=
  let exponent := leading - count + 1
  let upper := interval.value * Nat.pow 10 (-exponent).toNat
  let lower := interval.denominator * Nat.pow 10 exponent.toNat
  let below : Decimal := ⟨upper / lower, exponent⟩
  let above : Decimal := ⟨upper / lower + 1, exponent⟩
  match interval.contains below, interval.contains above with
  | true, true => if tie.roundsDown upper lower then some below else some above
  | true, false => some below
  | false, true => some above
  | false, false => none

/-- The shortest decimal that reads back as the magnitude of a finite number. Seventeen digits
always suffice. -/
def shortest (tie : Tie) (number : Binary64) : Decimal :=
  if number.significand = 0 then ⟨0, 0⟩
  else
    let interval := Interval.ofBinary number
    let leading := leadingPower interval.value interval.denominator
    match (List.range 17).findSome? fun count => interval.nearest? tie leading (count + 1) with
    | some decimal => trimZeros 20 decimal
    | none => ⟨interval.value, 0⟩

/-! ## Layout -/

/-- How a floating-point number is written. -/
structure Layout where
  /-- Which of two equally near decimals is written. -/
  tie : Tie
  /-- The smallest power of the leading digit that is written positionally. -/
  smallestPositional : Int
  /-- The largest power of the leading digit that is written positionally. -/
  largestPositional : Int
  /-- What stands before a non-negative exponent. -/
  positiveExponent : String
  /-- What stands before the magnitude of a negative exponent. -/
  negativeExponent : String

/-- Writes digits with a decimal point after the first `point` of them, filling up with zeros; at
least one digit stands on either side of the point. -/
def positional (digits : String) (point : Int) : String :=
  if point ≤ 0 then "0." ++ "".pushn '0' (-point).toNat ++ digits
  else
    let whole := point.toNat
    if digits.length ≤ whole then digits.pushn '0' (whole - digits.length) ++ ".0"
    else String.ofList (digits.toList.take whole) ++ "." ++ String.ofList (digits.toList.drop whole)

/-- Writes digits with a point after the first one, if more follow, and the exponent. -/
def scientific (layout : Layout) (digits : String) (leading : Int) : String :=
  let mantissa := match digits.toList with
    | first :: second :: rest => String.ofList (first :: '.' :: second :: rest)
    | short => String.ofList short
  let mark := if leading < 0 then layout.negativeExponent else layout.positiveExponent
  mantissa ++ mark ++ toString leading.natAbs

/-- The text of a finite number in a layout. -/
def renderFinite (layout : Layout) (number : Binary64) : String :=
  let decimal := shortest layout.tie number
  let digits := toString decimal.digits
  let leading := decimal.exponent + digits.length - 1
  let sign := if number.isNegative then "-" else ""
  if decimal.digits = 0 then sign ++ "0.0"
  else if layout.smallestPositional ≤ leading ∧ leading ≤ layout.largestPositional then
    sign ++ positional digits (leading + 1)
  else sign ++ scientific layout digits leading

end Decimal

end Midend
