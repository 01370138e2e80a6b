import Midend.Error
import Midend.Literal
import Midend.Opcode

/-! # Instructions

An instruction of the intermediate code: what it does, an optional source position and a sequence
key that traces it back to its source. `Instr.check` says which instructions are well-formed. -/

namespace Midend

/-- A place in a source text. -/
structure Position where
  /-- The line. -/
  row : Nat
  /-- The column. -/
  col : Nat
  deriving DecidableEq, Repr

/-- The operands of an operation other than a constant. -/
structure Operands where
  /-- The variables read. -/
  args : List String := []
  /-- The functions called. -/
  funcs : List String := []
  /-- Branch targets, or the blocks that the arguments of a merge come from. -/
  labels : List String := []
  deriving DecidableEq, Repr

/-- What an instruction does. -/
inductive Action where
  /-- `dest: ty = const value` -/
  | const (dest : String) (ty : Ty) (value : Literal)
  /-- `dest: ty = op @funcs args .labels` -/
  | compute (op : Opcode) (dest : String) (ty : Ty) (operands : Operands)
  /-- `op @funcs args .labels` -/
  | effect (op : Opcode) (operands : Operands)
  /-- `.name:` -/
  | label (name : String)
  deriving DecidableEq, Repr

/-- An instruction. -/
structure Instr where
  /-- What it does. -/
  action : Action
  /-- Where it comes from. -/
  pos : Option Position := none
  /-- A number that traces it back to its source. -/
  key : Nat := 0
  deriving DecidableEq, Repr

/-- Sequence keys are below this bound. -/
def keyLimit : Nat := Nat.pow 2 64

namespace Operands

/-- The text of operands, each after a blank. -/
def render (operands : Operands) : String :=
  String.join (operands.funcs.map (" @" ++ ·) ++ operands.args.map (" " ++ ·) ++
    operands.labels.map (" ." ++ ·))

end Operands

namespace Action

/-- The operation, unless this is a label. -/
def op? : Action → Option Opcode
  | .const _ _ _ => some .const
  | .compute op _ _ _ => some op
  | .effect op _ => some op
  | .label _ => none

/-- The variable written, if any. -/
def dest? : Action → Option String
  | .const dest _ _ => some dest
  | .compute _ dest _ _ => some dest
  | _ => none

/-- The type of the variable written, if any. -/
def ty? : Action → Option Ty
  | .const _ ty _ => some ty
  | .compute _ _ ty _ => some ty
  | _ => none

/-- The operands. -/
def operands : Action → Operands
  | .compute _ _ _ operands => operands
  | .effect _ operands => operands
  | _ => {}

/-- Changes the operands, if there are any. -/
def mapOperands (change : Operands → Operands) : Action → Action
  | .compute op dest ty operands => .compute op dest ty (change operands)
  | .effect op operands => .effect op (change operands)
  | action => action

/-- Changes the variable written, if any. -/
def mapDest (change : String → String) : Action → Action
  | .const dest ty value => .const (change dest) ty value
  | .compute op dest ty operands => .compute op (change dest) ty operands
  | action => action

/-- The text of an action. -/
def render : Action → String
  | .label name => "." ++ name ++ ":"
  | .const dest ty value => dest ++ ": " ++ ty.render ++ " = const " ++ value.render ++ ";"
  | .compute op dest ty operands =>
    dest ++ ": " ++ ty.render ++ " = " ++ op.name ++ operands.render ++ ";"
  | .effect op operands => op.name ++ operands.render ++ ";"

end Action

namespace Instr

/-! ## Construction -/

/-- `dest: ty = const value` -/
def const (dest : String) (ty : Ty) (value : Literal) : Instr := { action := .const dest ty value }

/-- `dest: ty = op args` -/
def compute (op : Opcode) (dest : String) (ty : Ty) (args : List String) : Instr :=
  { action := .compute op dest ty { args } }

/-- `dest: ty = id source` -/
def copy (dest : String) (ty : Ty) (source : String) : Instr := compute .id dest ty [source]

/-- `dest: ty = undef` -/
def undef (dest : String) (ty : Ty) : Instr := compute .undef dest ty []

/-- `dest: ty = phi args .labels` -/
def phi (dest : String) (ty : Ty) (args labels : List String) : Instr :=
  { action := .compute .phi dest ty { args, labels } }

/-- `op args .labels` -/
def effect (op : Opcode) (args labels : List String) : Instr :=
  { action := .effect op { args, labels } }

/-- `jmp .target` -/
def jmp (target : String) : Instr := effect .jmp [] [target]

/-- `br condition .positive .negative` -/
def br (condition positive negative : String) : Instr :=
  effect .br [condition] [positive, negative]

/-- `ret` or `ret value` -/
def ret (value : Option String) : Instr := effect .ret value.toList []

/-- `.name:` -/
def label (name : String) : Instr := { action := .label name }

/-- The instruction with another key. -/
def withKey (instr : Instr) (key : Nat) : Instr := { instr with key }

/-! ## Parts -/

/-- The operation, unless this is a label. -/
def op? (instr : Instr) : Option Opcode := instr.action.op?

/-- The variable written, if any. -/
def dest? (instr : Instr) : Option String := instr.action.dest?

/-- The type of the variable written, if any. -/
def ty? (instr : Instr) : Option Ty := instr.action.ty?

/-- The variables read. -/
def args (instr : Instr) : List String := instr.action.operands.args

/-- The functions called. -/
def funcs (instr : Instr) : List String := instr.action.operands.funcs

/-- The labels named. -/
def labels (instr : Instr) : List String := instr.action.operands.labels

/-- The constant, if this is one. -/
def literal? (instr : Instr) : Option Literal :=
  match instr.action with
  | .const _ _ value => some value
  | _ => none

/-- Whether this is a label. -/
def isLabel (instr : Instr) : Bool :=
  match instr.action with
  | .label _ => true
  | _ => false

/-- Whether the operation ends a block. -/
def isTerminator (instr : Instr) : Bool :=
  match instr.op? with
  | some op => op.isTerminator
  | none => false

/-- Whether this merges values of several blocks. -/
def isPhi (instr : Instr) : Bool :=
  match instr.action with
  | .compute .phi _ _ _ => true
  | _ => false

/-- Whether this writes a variable and does nothing else. -/
def isPure (instr : Instr) : Bool :=
  match instr.action with
  | .const _ _ _ => true
  | .compute op _ _ _ => op.isPure
  | _ => false

/-- The arguments of a merge with the blocks they come from. -/
def incoming (instr : Instr) : List (String × String) := instr.labels.zip instr.args

/-! ## Changes -/

/-- Changes every variable read. -/
def mapArgs (change : String → String) (instr : Instr) : Instr :=
  { instr with
    action := instr.action.mapOperands fun operands =>
      { operands with args := operands.args.map change } }

/-- Changes every label named. -/
def mapLabels (change : String → String) (instr : Instr) : Instr :=
  { instr with
    action := instr.action.mapOperands fun operands =>
      { operands with labels := operands.labels.map change } }

/-- Changes the variable written, if any. -/
def mapDest (change : String → String) (instr : Instr) : Instr :=
  { instr with action := instr.action.mapDest change }

/-- Replaces the arguments and labels of a merge. -/
def withIncoming (instr : Instr) (incoming : List (String × String)) : Instr :=
  { instr with
    action := instr.action.mapOperands fun operands =>
      { operands with args := incoming.map Prod.snd, labels := incoming.map Prod.fst } }

/-- The text of an instruction. -/
def render (instr : Instr) : String := instr.action.render

/-! ## Well-formed instructions -/

/-- An operation's name between quotes. -/
def quoted (op : Opcode) : String := "'" ++ op.name ++ "'"

/-- The complaint about a wrong number of operands of some kind. -/
def countMessage (op : Opcode) (kind : String) (expected found : Nat) : String :=
  quoted op ++ " expects " ++ toString expected ++ " " ++ kind ++ ", found " ++ toString found

/-- Whether the numbers of arguments, labels and functions fit the operation. -/
def checkOperands (op : Opcode) (operands : Operands) : Except Error Unit := do
  match op.arity with
  | some expected =>
    if operands.args.length ≠ expected then
      throw (.malformed (countMessage op "argument(s)" expected operands.args.length))
  | none => pure ()
  match op.labelCount with
  | some expected =>
    if operands.labels.length ≠ expected then
      throw (.malformed (countMessage op "label(s)" expected operands.labels.length))
  | none =>
    if operands.labels.length ≠ operands.args.length ∨ operands.args.isEmpty then
      throw (.malformed (quoted op ++ " has " ++ toString operands.args.length ++
        " argument(s) but " ++ toString operands.labels.length ++ " label(s)"))
  let expected := if op = .call then 1 else 0
  if operands.funcs.length ≠ expected then
    throw (.malformed (countMessage op "function name(s)" expected operands.funcs.length))

/-- Whether an instruction is well-formed: the operation may stand in that form and has as many
operands as it needs. -/
def check (instr : Instr) : Except Error Unit :=
  match instr.action with
  | .const _ _ _ => .ok ()
  | .label name => if name.isEmpty then .error (.malformed "Empty label name") else .ok ()
  | .compute op dest _ operands =>
    if !op.isValue ∨ op = .const then
      .error (.malformed (quoted op ++ " cannot produce a value (" ++ dest ++ ")"))
    else checkOperands op operands
  | .effect op operands =>
    if !op.isEffect then .error (.malformed (quoted op ++ " requires a destination"))
    else do
      checkOperands op operands
      if op = .ret ∧ 1 < operands.args.length then
        throw (.malformed "'ret' takes at most one argument")

end Instr

end Midend
