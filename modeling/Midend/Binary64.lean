/-! # Binary floating point

A 64-bit floating-point number as its bit pattern. Numbers are told apart by their bits, so that
the two zeros differ and a number that is not a number equals itself. Conversions go through exact
integer arithmetic: `Binary64.ofRatio?` rounds a quotient to the nearest number, ties to even. -/

namespace Midend

/-- A 64-bit floating-point number, identified with its bit pattern. -/
structure Binary64 where
  /-- Sign, 11 exponent bits and 52 fraction bits, from the top. -/
  bits : UInt64
  deriving DecidableEq, Repr

namespace Binary64

/-- The number of fraction bits. -/
def fractionBits : Nat := 52

/-- The exponent field of infinities and of what is not a number. -/
def topExponent : Nat := 2047

/-- Whether the sign bit is set. -/
def isNegative (value : Binary64) : Bool := value.bits.toNat / Nat.pow 2 63 == 1

/-- The exponent field. -/
def exponentField (value : Binary64) : Nat := value.bits.toNat / Nat.pow 2 fractionBits % 2048

/-- The fraction field. -/
def fractionField (value : Binary64) : Nat := value.bits.toNat % Nat.pow 2 fractionBits

/-- Whether the number is neither infinite nor an invalid one. -/
def isFinite (value : Binary64) : Bool := value.exponentField != topExponent

/-- Whether the pattern stands for no number. -/
def isNaN (value : Binary64) : Bool := !value.isFinite && value.fractionField != 0

/-- The integer factor of a finite number: its magnitude is `significand * 2 ^ scale`. -/
def significand (value : Binary64) : Nat :=
  if value.exponentField = 0 then value.fractionField
  else value.fractionField + Nat.pow 2 fractionBits

/-- The power of two of a finite number: its magnitude is `significand * 2 ^ scale`. -/
def scale (value : Binary64) : Int := (max value.exponentField 1 : Int) - 1075

/-- The number of a magnitude's bit pattern with a given sign. -/
def ofMagnitude (negative : Bool) (magnitude : Nat) : Binary64 :=
  ⟨UInt64.ofNat (if negative then magnitude + Nat.pow 2 63 else magnitude)⟩

/-- Zero with a given sign. -/
def zero (negative : Bool) : Binary64 := ofMagnitude negative 0

/-- `numerator / denominator` rounded to the nearest integer, ties to even. -/
def roundHalfEven (numerator denominator : Nat) : Nat :=
  let quotient := numerator / denominator
  let twice := 2 * (numerator % denominator)
  if twice < denominator then quotient
  else if denominator < twice then quotient + 1
  else quotient + quotient % 2

/-- The terms of `numerator / (denominator * 2 ^ power)`. -/
def scaleRatio (numerator denominator : Nat) (power : Int) : Nat × Nat :=
  (numerator * Nat.pow 2 (-power).toNat, denominator * Nat.pow 2 power.toNat)

/-- The number nearest to the quotient `numerator / denominator`, ties to even, or none when it lies
beyond the largest finite number. -/
def ofRatio? (negative : Bool) (numerator denominator : Nat) : Option Binary64 :=
  let estimate : Int := (Nat.log2 numerator : Int) - Nat.log2 denominator - 53
  let lowest : Int := max estimate (-1074)
  let scaled := scaleRatio numerator denominator lowest
  let power := if scaled.1 / scaled.2 < Nat.pow 2 53 then lowest else lowest + 1
  let (upper, lower) := scaleRatio numerator denominator power
  let magnitude := (power + 1074).toNat * Nat.pow 2 fractionBits + roundHalfEven upper lower
  if numerator = 0 then some (zero negative)
  else if topExponent * Nat.pow 2 fractionBits ≤ magnitude then none
  else some (ofMagnitude negative magnitude)

/-- The number nearest to an integer of at most 64 bits. -/
def ofInt (value : Int) : Binary64 := (ofRatio? (value < 0) value.natAbs 1).getD (zero false)

/-! ## Products and quotients -/

/-- The magnitude of a finite number as a numerator and a denominator. -/
def ratio (value : Binary64) : Nat × Nat :=
  (value.significand * Nat.pow 2 value.scale.toNat, Nat.pow 2 (-value.scale).toNat)

/-- The product of two finite numbers, rounded once, or none when it is too large. -/
def mul? (left right : Binary64) : Option Binary64 :=
  ofRatio? (left.isNegative != right.isNegative)
    (left.ratio.1 * right.ratio.1) (left.ratio.2 * right.ratio.2)

/-- The quotient of two finite numbers, rounded once, or none when it is too large. The divisor is
not zero. -/
def div? (left right : Binary64) : Option Binary64 :=
  ofRatio? (left.isNegative != right.isNegative)
    (left.ratio.1 * right.ratio.2) (left.ratio.2 * right.ratio.1)

/-! ## Decimals -/

/-- The exponent of the largest power of ten that is in range. -/
def maxPowerOfTen : Nat := 308

/-- The number nearest to a power of ten, up to the largest one in range. -/
def powerOfTen (exponent : Nat) : Binary64 :=
  (ofRatio? false (Nat.pow 10 (min exponent maxPowerOfTen)) 1).getD (zero false)

/-- `digits * 10 ^ exponent` in floating-point steps, for digits of at most 64 bits: the digits are
rounded, and then multiplied with or divided by a power of ten, with one more division where a
single power does not reach far enough down. As every step rounds, the outcome need not be the
number nearest to the decimal. There is none when a product is too large. -/
def ofDecimal? (negative : Bool) (digits : Nat) (exponent : Int) : Option Binary64 := do
  let start ← ofRatio? negative digits 1
  if digits = 0 then some start
  else if 0 ≤ exponent then
    if exponent ≤ maxPowerOfTen then start.mul? (powerOfTen exponent.toNat) else none
  else if -exponent ≤ maxPowerOfTen then start.div? (powerOfTen (-exponent).toNat)
  else if -exponent ≤ 2 * maxPowerOfTen then
    (← start.div? (powerOfTen maxPowerOfTen)).div? (powerOfTen ((-exponent).toNat - maxPowerOfTen))
  else some (zero negative)

end Binary64

end Midend
