import Midend.Literal
import Midend.Opcode

/-! # Folding of constants

The value of an operation whose operands are known well enough. Integer arithmetic wraps; a division
that would fail at run time is left alone. -/

namespace Midend

/-- What is known about truth values among the operands. -/
def knownBools (args : List (Option Literal)) : List (Option Bool) :=
  args.map fun arg => arg.bind Literal.bool?

/-- An integer operation on two known operands. Division by zero, and of the least integer by minus
one, has no value. -/
def foldInts (op : Opcode) (left right : Int64) : Option Literal :=
  match op with
  | .add => some (.int (left + right))
  | .sub => some (.int (left - right))
  | .mul => some (.int (left * right))
  | .div =>
    if right = 0 ∨ (left = Int64.minValue ∧ right = -1) then none else some (.int (left / right))
  | .lt => some (.bool (left < right))
  | .gt => some (.bool (right < left))
  | .le => some (.bool (left ≤ right))
  | .ge => some (.bool (right ≤ left))
  | _ => none

/-- A conjunction or disjunction: one operand equal to `absorbing` decides it. -/
def foldLogic (absorbing : Bool) (args : List (Option Literal)) : Option Literal :=
  let bools := knownBools args
  if bools.contains (some absorbing) then some (.bool absorbing)
  else
    match bools with
    | [some _, some _] => some (.bool !absorbing)
    | _ => none

/-- Whether a comparison of a value with itself holds, for the operations that compare. -/
def reflexive? : Opcode → Option Bool
  | .eq | .le | .ge => some true
  | .ne | .lt | .gt => some false
  | _ => none

/-- The value of an operation on operands of which some are known; `same` says that all of them are
one value. -/
def fold (op : Opcode) (args : List (Option Literal)) (same : Bool) : Option Literal :=
  match op with
  | .not =>
    match args with
    | [some (.bool value)] => some (.bool !value)
    | _ => none
  | .and => foldLogic false args
  | .or => foldLogic true args
  | _ =>
    match same, reflexive? op with
    | true, some value => some (.bool value)
    | _, _ =>
      if op = .eq ∨ op = .ne then
        match args with
        | [some left, some right] =>
          if left.ty = right.ty then some (.bool ((left = right) == (op = .eq))) else none
        | _ => none
      else
        match args with
        | [some (.int left), some (.int right)] => foldInts op left right
        | _ => none

end Midend
