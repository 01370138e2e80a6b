/-! # Operations

The operations of the intermediate code and what holds of an operation whatever its operands: its
name, its traits and how many arguments and labels it takes. Optimizations ask for traits and never
list operations of their own. -/

namespace Midend

/-- An operation of the intermediate code. -/
inductive Opcode where
  /-- Integer addition, wrapping on overflow. -/
  | add
  /-- Integer subtraction, wrapping on overflow. -/
  | sub
  /-- Integer multiplication, wrapping on overflow. -/
  | mul
  /-- Integer division towards zero. -/
  | div
  /-- Equality of two values. -/
  | eq
  /-- Inequality of two values. -/
  | ne
  /-- Integer less-than. -/
  | lt
  /-- Integer greater-than. -/
  | gt
  /-- Integer less-or-equal. -/
  | le
  /-- Integer greater-or-equal. -/
  | ge
  /-- Negation of a truth value. -/
  | not
  /-- Conjunction of truth values. -/
  | and
  /-- Disjunction of truth values. -/
  | or
  /-- Copy of one variable. -/
  | id
  /-- A constant. -/
  | const
  /-- Call of a function, with or without a result. -/
  | call
  /-- Merge that selects an argument by the block control came from. -/
  | phi
  /-- A value that no executed path reads. -/
  | undef
  /-- Jump to one label. -/
  | jmp
  /-- Branch to one of two labels on a truth value. -/
  | br
  /-- Return, possibly with a value. -/
  | ret
  /-- Output of the arguments on one line. -/
  | print
  /-- No effect. -/
  | nop
  /-- Allocation of memory. -/
  | alloc
  /-- Release of memory. -/
  | free
  /-- Read through a pointer. -/
  | load
  /-- Write through a pointer. -/
  | store
  /-- Pointer plus integer offset. -/
  | ptradd
  /-- Float addition. -/
  | fadd
  /-- Float subtraction. -/
  | fsub
  /-- Float multiplication. -/
  | fmul
  /-- Float division. -/
  | fdiv
  /-- Float equality. -/
  | feq
  /-- Float less-than. -/
  | flt
  /-- Float less-or-equal. -/
  | fle
  /-- Float greater-than. -/
  | fgt
  /-- Float greater-or-equal. -/
  | fge
  deriving DecidableEq, Repr

/-- Static properties of an operation. -/
structure Opcode.Traits where
  /-- It may produce a value. -/
  value : Bool := false
  /-- It may stand without a destination. -/
  effect : Bool := false
  /-- It ends a block. -/
  terminator : Bool := false
  /-- It has no side effect, so an unused result may be dropped. -/
  pure : Bool := false
  /-- Its two operands may be swapped. -/
  commutative : Bool := false
  /-- Its result may be computed from constant operands ahead of time. -/
  foldable : Bool := false
  deriving DecidableEq, Repr

namespace Opcode

/-- All operations. -/
def all : List Opcode :=
  [.add, .sub, .mul, .div, .eq, .ne, .lt, .gt, .le, .ge, .not, .and,
    .or, .id, .const, .call, .phi, .undef, .jmp, .br, .ret, .print, .nop, .alloc,
    .free, .load, .store, .ptradd, .fadd, .fsub, .fmul, .fdiv, .feq, .flt, .fle, .fgt,
    .fge]

/-- The name of an operation. -/
def name : Opcode → String
  | .add => "add"
  | .sub => "sub"
  | .mul => "mul"
  | .div => "div"
  | .eq => "eq"
  | .ne => "ne"
  | .lt => "lt"
  | .gt => "gt"
  | .le => "le"
  | .ge => "ge"
  | .not => "not"
  | .and => "and"
  | .or => "or"
  | .id => "id"
  | .const => "const"
  | .call => "call"
  | .phi => "phi"
  | .undef => "undef"
  | .jmp => "jmp"
  | .br => "br"
  | .ret => "ret"
  | .print => "print"
  | .nop => "nop"
  | .alloc => "alloc"
  | .free => "free"
  | .load => "load"
  | .store => "store"
  | .ptradd => "ptradd"
  | .fadd => "fadd"
  | .fsub => "fsub"
  | .fmul => "fmul"
  | .fdiv => "fdiv"
  | .feq => "feq"
  | .flt => "flt"
  | .fle => "fle"
  | .fgt => "fgt"
  | .fge => "fge"

/-- The operation of a name. -/
def ofName? (name : String) : Option Opcode := all.find? fun operation => operation.name == name

/-- Every operation is listed. -/
theorem mem_all (operation : Opcode) : operation ∈ all := by cases operation <;> decide

/-- The properties of an operation. -/
def traits : Opcode → Traits
  | .add | .mul | .eq | .ne | .and | .or => ⟨true, false, false, true, true, true⟩
  | .sub | .div | .lt | .gt | .le | .ge | .not => ⟨true, false, false, true, false, true⟩
  | .fadd | .fmul | .feq => ⟨true, false, false, true, true, false⟩
  | .fsub | .fdiv | .flt | .fle | .fgt | .fge | .id | .const | .phi | .undef | .ptradd =>
    ⟨true, false, false, true, false, false⟩
  | .call => ⟨true, true, false, false, false, false⟩
  | .alloc | .load => ⟨true, false, false, false, false, false⟩
  | .jmp | .br | .ret => ⟨false, true, true, false, false, false⟩
  | .print | .nop | .free | .store => ⟨false, true, false, false, false, false⟩

/-- Whether the operation may produce a value. -/
def isValue (operation : Opcode) : Bool := operation.traits.value

/-- Whether the operation may stand without a destination. -/
def isEffect (operation : Opcode) : Bool := operation.traits.effect

/-- Whether the operation ends a block. -/
def isTerminator (operation : Opcode) : Bool := operation.traits.terminator

/-- Whether an unused result of the operation may be dropped. -/
def isPure (operation : Opcode) : Bool := operation.traits.pure

/-- Whether the order of the operands does not matter. -/
def isCommutative (operation : Opcode) : Bool := operation.traits.commutative

/-- Whether constant operands may be folded. -/
def isFoldable (operation : Opcode) : Bool := operation.traits.foldable

/-- The properties as a number, one bit each, in the order of the fields of `Traits`. -/
def Traits.mask (traits : Traits) : Nat :=
  traits.value.toNat + 2 * traits.effect.toNat + 4 * traits.terminator.toNat +
    8 * traits.pure.toNat + 16 * traits.commutative.toNat + 32 * traits.foldable.toNat

/-- The number of arguments, unless it varies. -/
def arity : Opcode → Option Nat
  | .call | .phi | .ret | .print => none
  | .const | .undef | .jmp | .nop => some 0
  | .not | .id | .br | .alloc | .load | .free => some 1
  | _ => some 2

/-- The number of labels, unless it follows the number of arguments. -/
def labelCount : Opcode → Option Nat
  | .jmp => some 1
  | .br => some 2
  | .phi => none
  | _ => some 0

end Opcode

end Midend
