import Midend.Json.Value

/-! # Types of values

The types of the intermediate code: scalars and pointers, with their text, their order and their
form as JSON. -/

namespace Midend

/-- The type of a value. -/
inductive Ty where
  /-- A 64-bit signed integer. -/
  | int
  /-- A truth value. -/
  | bool
  /-- A 64-bit floating-point number. -/
  | float
  /-- A Unicode character. -/
  | char
  /-- A pointer to a value. -/
  | ptr (pointee : Ty)
  deriving DecidableEq, Repr

namespace Ty

/-- The text of a type. -/
def render : Ty → String
  | .int => "int"
  | .bool => "bool"
  | .float => "float"
  | .char => "char"
  | .ptr pointee => "ptr<" ++ pointee.render ++ ">"

/-- The place of a type's outermost constructor in the order of types. -/
def rank : Ty → Nat
  | .int => 0
  | .bool => 1
  | .float => 2
  | .char => 3
  | .ptr _ => 4

/-- The order of types: scalars first, pointers by what they point to. -/
def order : Ty → Ty → Ordering
  | .ptr left, .ptr right => order left right
  | left, right => compare left.rank right.rank

instance : Ord Ty := ⟨order⟩

/-- A scalar type as a text, a pointer as an object with the member `ptr`. -/
def toJson : Ty → Json
  | .ptr pointee => .object [("ptr", pointee.toJson)]
  | scalar => .string scalar.render

/-- The scalar type of a name. -/
def ofName? : String → Option Ty
  | "int" => some .int
  | "bool" => some .bool
  | "float" => some .float
  | "char" => some .char
  | _ => none

mutual

/-- Reads a type from JSON. Other members of a pointer's object are ignored, but `ptr` must stand
there exactly once. -/
def ofJson? : Json → Option Ty
  | .string name => ofName? name
  | .object members =>
    if (members.filter fun member => member.1 == "ptr").length = 1 then ofMembers? members
    else none
  | _ => none

/-- Reads the pointer type that the member `ptr` describes. -/
def ofMembers? : List (String × Json) → Option Ty
  | [] => none
  | (name, value) :: rest =>
    if name = "ptr" then (ofJson? value).map .ptr else ofMembers? rest

end

end Ty

end Midend
