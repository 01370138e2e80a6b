import Midend.Literal
import Midend.Opcode

/-! # Values at run time

What a variable holds while code runs, and what an operation makes of such values. Integer
arithmetic wraps and a division may fail; an undefined value may be copied but not used. Operations
on floating-point numbers are parameters of a `Machine`. -/

namespace Midend

/-- What a variable holds. -/
inductive Value where
  /-- An integer. -/
  | int (value : Int64)
  /-- A truth value. -/
  | bool (value : Bool)
  /-- A floating-point number. -/
  | float (value : Binary64)
  /-- A character. -/
  | char (value : Char)
  /-- A value that may be copied and nothing else. -/
  | undef
  deriving DecidableEq, Repr

/-- The value of a constant. -/
def Literal.toValue : Literal → Value
  | .int value => .int value
  | .bool value => .bool value
  | .float value => .float value
  | .char value => .char value

/-- What a machine makes of floating-point numbers. -/
structure FloatOps where
  /-- Addition. -/
  add : Binary64 → Binary64 → Binary64
  /-- Subtraction. -/
  sub : Binary64 → Binary64 → Binary64
  /-- Multiplication. -/
  mul : Binary64 → Binary64 → Binary64
  /-- Division. -/
  div : Binary64 → Binary64 → Binary64
  /-- Equality. -/
  eq : Binary64 → Binary64 → Bool
  /-- Less-than. -/
  lt : Binary64 → Binary64 → Bool
  /-- Less-or-equal. -/
  le : Binary64 → Binary64 → Bool
  /-- Greater-than. -/
  gt : Binary64 → Binary64 → Bool
  /-- Greater-or-equal. -/
  ge : Binary64 → Binary64 → Bool
  /-- The text that is printed. -/
  render : Binary64 → String
  /-- The order of summands does not matter. -/
  add_comm : ∀ left right, add left right = add right left
  /-- The order of factors does not matter. -/
  mul_comm : ∀ left right, mul left right = mul right left
  /-- The order of compared numbers does not matter. -/
  eq_comm : ∀ left right, eq left right = eq right left

/-- What running code depends on besides the code. -/
structure Machine where
  /-- The operations on floating-point numbers. -/
  floats : FloatOps
  /-- Whether `eq` and `ne` compare two floating-point numbers; a machine that does not stops
  there. -/
  comparesFloats : Bool := true

/-- A machine for code without floating-point numbers: it makes the same of all of them. -/
def Machine.withoutFloats : Machine where
  floats := {
    add := fun _ _ => ⟨0⟩, sub := fun _ _ => ⟨0⟩, mul := fun _ _ => ⟨0⟩, div := fun _ _ => ⟨0⟩
    eq := fun _ _ => true, lt := fun _ _ => false, le := fun _ _ => true
    gt := fun _ _ => false, ge := fun _ _ => true, render := fun _ => "0.00000000000000000"
    add_comm := fun _ _ => rfl, mul_comm := fun _ _ => rfl, eq_comm := fun _ _ => rfl }
  comparesFloats := false

namespace Value

/-- Whether a value may be used. -/
def isDefined : Value → Bool
  | .undef => false
  | _ => true

/-- The text of a printed value. -/
def render (floats : FloatOps) : Value → String
  | .int value => toString value.toInt
  | .bool value => toString value
  | .float value => floats.render value
  | .char value => value.toString
  | .undef => "undef"

end Value

namespace Machine

/-- An operation on two integers. -/
def applyInts (op : Opcode) (left right : Int64) : Option Value :=
  match op with
  | .add => some (.int (left + right))
  | .sub => some (.int (left - right))
  | .mul => some (.int (left * right))
  | .div =>
    if right = 0 ∨ (left = Int64.minValue ∧ right = -1) then none else some (.int (left / right))
  | .lt => some (.bool (left < right))
  | .gt => some (.bool (left > right))
  | .le => some (.bool (left ≤ right))
  | .ge => some (.bool (left ≥ right))
  | _ => none

/-- An operation on two truth values. -/
def applyBools (op : Opcode) (left right : Bool) : Option Value :=
  match op with
  | .and => some (.bool (left && right))
  | .or => some (.bool (left || right))
  | _ => none

/-- An operation on two floating-point numbers. -/
def applyFloats (floats : FloatOps) (op : Opcode) (left right : Binary64) : Option Value :=
  match op with
  | .fadd => some (.float (floats.add left right))
  | .fsub => some (.float (floats.sub left right))
  | .fmul => some (.float (floats.mul left right))
  | .fdiv => some (.float (floats.div left right))
  | .feq => some (.bool (floats.eq left right))
  | .flt => some (.bool (floats.lt left right))
  | .fle => some (.bool (floats.le left right))
  | .fgt => some (.bool (floats.gt left right))
  | .fge => some (.bool (floats.ge left right))
  | _ => none

/-- Whether two values are equal; undefined ones cannot be compared. -/
def compare? (machine : Machine) (left right : Value) : Option Bool :=
  match left, right with
  | .undef, _ => none
  | _, .undef => none
  | .float left, .float right =>
    if machine.comparesFloats then some (machine.floats.eq left right) else none
  | left, right => some (left = right)

/-- What an operation makes of its operands, unless it fails. -/
def apply (machine : Machine) (op : Opcode) (args : List Value) : Option Value :=
  match args with
  | [.bool value] => if op = .not then some (.bool !value) else none
  | [left, right] =>
    if op = .eq then (machine.compare? left right).map .bool
    else if op = .ne then (machine.compare? left right).map fun equal => .bool !equal
    else
      match left, right with
      | .int left, .int right => applyInts op left right
      | .bool left, .bool right => applyBools op left right
      | .float left, .float right => applyFloats machine.floats op left right
      | _, _ => none
  | _ => none

/-- Comparison does not depend on the order. -/
theorem compare?_comm (machine : Machine) (left right : Value) :
    machine.compare? left right = machine.compare? right left := by
  cases left <;> cases right <;> try rfl
  case float.float left right =>
    simp only [compare?]
    rw [machine.floats.eq_comm]
  all_goals exact congrArg some (decide_eq_decide.2 eq_comm)

/-- A commutative operation does not depend on the order of its operands. -/
theorem apply_comm (machine : Machine) {op : Opcode} (commutative : op.isCommutative = true)
    (left right : Value) : machine.apply op [left, right] = machine.apply op [right, left] := by
  cases op <;> try cases commutative
  case eq => simp [apply, machine.compare?_comm left right]
  case ne => simp [apply, machine.compare?_comm left right]
  all_goals
    cases left <;> cases right <;>
      simp [apply, applyInts, applyBools, applyFloats, Int64.add_comm, Int64.mul_comm,
        Bool.and_comm, Bool.or_comm, machine.floats.add_comm, machine.floats.mul_comm,
        machine.floats.eq_comm]

/-- No operation that ends a block applies to values. -/
theorem isTerminator_of_apply {machine : Machine} {op : Opcode} {args : List Value} {value : Value}
    (applied : machine.apply op args = some value) : op.isTerminator = false := by
  unfold apply at applied
  cases op <;> first
    | rfl
    | grind [applyInts, applyBools, applyFloats]

/-- What a machine computes that refuses to compare floating-point numbers, the one that compares
them computes too. -/
theorem apply_of_refusing {floats : FloatOps} {op : Opcode} {args : List Value} {value : Value}
    (applied : (Machine.mk floats false).apply op args = some value) :
    (Machine.mk floats true).apply op args = some value := by
  have compared : ∀ {left right : Value} {equal : Bool},
      (Machine.mk floats false).compare? left right = some equal →
        (Machine.mk floats true).compare? left right = some equal := by
    intro left right equal found
    cases left <;> cases right <;> simp_all [compare?]
  unfold apply at applied ⊢
  split at applied
  · exact applied
  · split at applied
    · rename_i isEq
      obtain ⟨equal, found, rfl⟩ := Option.map_eq_some_iff.1 applied
      rw [if_pos isEq, compared found, Option.map_some]
    · rename_i notEq
      rw [if_neg notEq]
      split at applied
      · rename_i isNe
        obtain ⟨equal, found, rfl⟩ := Option.map_eq_some_iff.1 applied
        rw [if_pos isNe, compared found, Option.map_some]
      · rename_i notNe
        rw [if_neg notNe]
        exact applied
  · cases applied

end Machine

end Midend
