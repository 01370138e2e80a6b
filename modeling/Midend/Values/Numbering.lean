import Midend.Event
import Midend.Fold
import Midend.Instr
import Midend.Values.Table

/-! # Numbering of instructions

The step that local and global value numbering share: an instruction's arguments are replaced by the
variables that first held their values, and an instruction whose value is known already, or can be
folded, becomes a copy or a constant. -/

namespace Midend

/-- Where a change takes place. -/
structure Place where
  /-- The function. -/
  function : String
  /-- The block. -/
  block : String
  /-- The pass at work. -/
  pass : String

/-- The report of a change. -/
def Place.report (place : Place) (kind : Event.Kind) (message : String) : Event :=
  { kind, function := some place.function, block := some place.block, pass := some place.pass,
    message }

namespace Numbering

/-- Replaces variables by the canonical ones of their values, in order. -/
def canonicalizeArgs (place : Place) : List String → ValueTable → List String × ValueTable × Log
  | [], table => ([], table, [])
  | arg :: rest, table =>
    let (number, table) := table.numberOrInput arg
    let canonical := (table.canonical? number).getD arg
    let reports :=
      if canonical = arg then []
      else [place.report .copyPropagated (arg ++ " -> " ++ canonical)]
    let (rest, table, log) := canonicalizeArgs place rest table
    (canonical :: rest, table, reports ++ log)

/-- The numbers of variables, in order; those that have none get new values. -/
def numbersOf : List String → ValueTable → List Nat × ValueTable
  | [], table => ([], table)
  | arg :: rest, table =>
    let (number, table) := table.numberOrInput arg
    let (numbers, table) := numbersOf rest table
    (number :: numbers, table)

/-- What an instruction that writes a variable became: its action, the number of its value, and the
table and reports that go with it. -/
structure Numbered where
  /-- The action that stands in the instruction's place. -/
  action : Action
  /-- The number of the value written. -/
  number : Nat
  /-- The table, in which the variable is not bound yet. -/
  table : ValueTable
  /-- The reports. -/
  log : Log := []

/-- An instruction that becomes a constant. -/
def becomeConst (place : Place) (dest : String) (ty : Ty) (literal : Literal) : Action × Event :=
  (.const dest ty literal, place.report .constantFolded (dest ++ " = " ++ literal.render))

/-- Numbers a constant: an equal constant that is still held lends its number. -/
def numberConst (table : ValueTable) (action : Action) (dest : String) (literal : Literal) :
    Numbered :=
  match table.lookup? (.const literal) with
  | some number => { action, number, table }
  | none =>
    let (number, table) := table.push (.const literal) dest (some literal)
    { action, number, table }

/-- Numbers a copy: it shares its source's number, and becomes a constant if that is known. -/
def numberCopy (place : Place) (table : ValueTable) (action : Action) (dest : String) (ty : Ty)
    (source : String) : Numbered :=
  let (number, table) := table.numberOrInput source
  match table.constant? number with
  | some literal =>
    let (action, report) := becomeConst place dest ty literal
    { action, number, table, log := [report] }
  | none => { action, number, table }

/-- Numbers an expression that no held value has: it is folded if its operands allow it. -/
def numberNew (place : Place) (table : ValueTable) (action : Action) (dest : String) (ty : Ty)
    (op : Opcode) (numbers : List Nat) (expr : Expr) : Numbered :=
  let same := match numbers with
    | [left, right] => left = right
    | _ => false
  match fold op (numbers.map table.constant?) same with
  | some literal =>
    let (action, report) := becomeConst place dest ty literal
    match table.lookup? (.const literal) with
    | some number => { action, number, table := table.index expr number, log := [report] }
    | none =>
      let (number, table) := table.push expr dest (some literal)
      { action, number, table, log := [report] }
  | none =>
    let (number, table) := table.push expr dest none
    { action, number, table }

/-- Numbers an operation without side effects: if a held value has the same expression, the
instruction becomes its constant or a copy of it. -/
def numberPure (place : Place) (table : ValueTable) (action : Action) (dest : String) (ty : Ty)
    (op : Opcode) (args : List String) : Numbered :=
  let (numbers, table) := numbersOf args table
  let expr := Expr.ofOp op numbers
  match table.lookup? expr with
  | none => numberNew place table action dest ty op numbers expr
  | some number =>
    match table.constant? number, table.canonical? number with
    | some literal, _ =>
      let (action, report) := becomeConst place dest ty literal
      { action, number, table, log := [report] }
    | none, some canonical =>
      { action := .compute .id dest ty { args := [canonical] }, number, table,
        log := [place.report .expressionReused (dest ++ " = id " ++ canonical)] }
    | none, none => { action, number, table }

/-- Numbers an instruction that writes a variable. -/
def numberWrite (place : Place) (table : ValueTable) (action : Action) (dest : String) (ty : Ty) :
    Numbered :=
  let unknown : Numbered :=
    let (number, table) := table.pushOpaque dest
    { action, number, table }
  match action with
  | .const _ _ literal => numberConst table action dest literal
  | .compute op _ _ operands =>
    match op, operands.args with
    | .id, [source] => numberCopy place table action dest ty source
    | _, args =>
      if op.isPure ∧ op ≠ .undef then numberPure place table action dest ty op args else unknown
  | _ => unknown

/-- Numbers an instruction; labels and merges are left alone. -/
def numberInstr (place : Place) (table : ValueTable) (instr : Instr) : Instr × ValueTable × Log :=
  if instr.isLabel ∨ instr.isPhi then (instr, table, [])
  else
    let (args, table, copies) := canonicalizeArgs place instr.args table
    let action := instr.action.mapOperands fun operands => { operands with args }
    match action.dest?, action.ty? with
    | some dest, some ty =>
      let numbered := numberWrite place table action dest ty
      ({ instr with action := numbered.action }, numbered.table.bind dest numbered.number,
        copies ++ numbered.log)
    | _, _ => ({ instr with action }, table, copies)

end Numbering

end Midend
