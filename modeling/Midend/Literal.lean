import Midend.Ty

/-! # Constants

The constants of the intermediate code. Floating-point constants are told apart by their bits, which
is what makes two constants interchangeable. -/

namespace Midend

/-- A constant. -/
inductive Literal where
  /-- An integer. -/
  | int (value : Int64)
  /-- A truth value. -/
  | bool (value : Bool)
  /-- A floating-point number. -/
  | float (value : Binary64)
  /-- A character. -/
  | char (value : Char)
  deriving DecidableEq, Repr

namespace Literal

/-- The type that a constant has by itself. -/
def ty : Literal → Ty
  | .int _ => .int
  | .bool _ => .bool
  | .float _ => .float
  | .char _ => .char

/-- The integer, if the constant is one. -/
def int? : Literal → Option Int64
  | .int value => some value
  | _ => none

/-- The truth value, if the constant is one. -/
def bool? : Literal → Option Bool
  | .bool value => some value
  | _ => none

/-- Floating-point constants are positional from `0.0001` up to sixteen digits before the point; a
positive exponent carries no sign. -/
def floatLayout : Decimal.Layout := ⟨.up, -4, 15, "e", "e-"⟩

/-- The text of a floating-point constant. -/
def renderFloat (value : Binary64) : String :=
  if value.isFinite then Decimal.renderFinite floatLayout value
  else if value.isNaN then "NaN"
  else if value.isNegative then "-inf"
  else "inf"

/-- The text of a constant. -/
def render : Literal → String
  | .int value => toString value.toInt
  | .bool value => toString value
  | .float value => renderFloat value
  | .char value => "'" ++ value.toString ++ "'"

/-- Reads a constant of a given type from JSON. -/
def ofJson? : Ty → Json → Option Literal
  | .int, .number value => value.toInt64?.map .int
  | .bool, .bool value => some (.bool value)
  | .float, .number value => some (.float value.toBinary64)
  | .char, .string value =>
    match value.toList with
    | [single] => some (.char single)
    | _ => none
  | _, _ => none

/-- A constant as JSON; a floating-point constant that is not finite has no number there. -/
def toJson : Literal → Json
  | .int value => Json.ofInt value.toInt
  | .bool value => .bool value
  | .float value => if value.isFinite then .number (.float value) else .null
  | .char value => .string value.toString

end Literal

end Midend
