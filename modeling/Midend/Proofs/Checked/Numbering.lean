import Midend.Proofs.Checked.Basic
import Midend.Values.Numbering

/-! # Checked numbering of values

The number of a new row is one less than the number of rows, the source of a copy is its first
argument, and the two operands of an operation are compared by their places. A row was just added,
and arguments are counted before one is taken, so the checks pass (`Checked.numberInstr?_eq`). -/

namespace Midend

namespace Checked

open Midend.Numbering

/-! ## Rows -/

/-- Adds a row; its number is that of the last one. -/
def addRow? (table : ValueTable) (row : Row) : Option (Nat × ValueTable) := do
  let table := { table with rows := table.rows ++ [row] }
  return (← minus? table.rows.length 1, table)

/-- Adds a value of which nothing is known. -/
def pushOpaque? (table : ValueTable) (var : String) : Option (Nat × ValueTable) :=
  addRow? table ⟨none, var, none⟩

/-- Adds the value of an expression. -/
def push? (table : ValueTable) (expr : Expr) (var : String) (constant : Option Literal) :
    Option (Nat × ValueTable) := do
  let (number, table) ← addRow? table ⟨some expr, var, constant⟩
  let table := table.index expr number
  match constant with
  | some literal =>
    if (table.lookup? (.const literal)).isNone then
      return (number, table.index (.const literal) number)
    else return (number, table)
  | none => return (number, table)

/-- The number of a variable; one that has none gets a new value. -/
def numberOrInput? (table : ValueTable) (var : String) : Option (Nat × ValueTable) :=
  match table.numberOf? var with
  | some number => some (number, table)
  | none => do
    let (number, table) ← pushOpaque? table var
    return (number, table.bind var number)

/-- Adds a value of which nothing is known and maps its variable to it. -/
def define? (table : ValueTable) (var : String) : Option ValueTable := do
  let (number, table) ← pushOpaque? table var
  return table.bind var number

section Rows

variable {table : ValueTable}

/-- The check on the number of a new row passes. -/
theorem addRow?_eq (table : ValueTable) (row : Row) :
    addRow? table row = some (table.size, { table with rows := table.rows ++ [row] }) := by
  rw [addRow?]
  dsimp only
  rw [minus?_length_concat]
  rfl

/-- The check on a new value of which nothing is known passes. -/
theorem pushOpaque?_eq (table : ValueTable) (var : String) :
    pushOpaque? table var = some (table.pushOpaque var) :=
  addRow?_eq table _

/-- The check on a new value of an expression passes. -/
theorem push?_eq (table : ValueTable) (expr : Expr) (var : String) (constant : Option Literal) :
    push? table expr var constant = some (table.push expr var constant) := by
  rw [push?, addRow?_eq, some_bind]
  cases constant with
  | none => rfl
  | some literal =>
    rw [ValueTable.push.eq_1]
    dsimp only
    split <;> rfl

/-- The check on the number of a variable passes. -/
theorem numberOrInput?_eq (table : ValueTable) (var : String) :
    numberOrInput? table var = some (table.numberOrInput var) := by
  rw [numberOrInput?, ValueTable.numberOrInput]
  cases table.numberOf? var with
  | some number => rfl
  | none =>
    dsimp only
    rw [pushOpaque?_eq]
    rfl

/-- The check on a variable with a new value passes. -/
theorem define?_eq (table : ValueTable) (var : String) :
    define? table var = some (table.define var) := by
  rw [define?, pushOpaque?_eq]
  rfl

/-- The checks on several variables with new values pass. -/
theorem foldlM_define? (vars : List String) (table : ValueTable) :
    vars.foldlM define? table = some (vars.foldl ValueTable.define table) :=
  (foldlM_eq_some (fun _ => True) trivial fun table _ var _ => ⟨define?_eq table var, trivial⟩).1

end Rows

/-! ## Instructions -/

/-- Replaces variables by the canonical ones of their values, in order. -/
def canonicalizeArgs? (place : Place) :
    List String → ValueTable → Option (List String × ValueTable × Log)
  | [], table => some ([], table, [])
  | arg :: rest, table => do
    let (number, table) ← numberOrInput? table arg
    let canonical := (table.canonical? number).getD arg
    let reports :=
      if canonical = arg then []
      else [place.report .copyPropagated (arg ++ " -> " ++ canonical)]
    let (rest, table, log) ← canonicalizeArgs? place rest table
    return (canonical :: rest, table, reports ++ log)

/-- The numbers of variables, in order. -/
def numbersOf? : List String → ValueTable → Option (List Nat × ValueTable)
  | [], table => some ([], table)
  | arg :: rest, table => do
    let (number, table) ← numberOrInput? table arg
    let (numbers, table) ← numbersOf? rest table
    return (number :: numbers, table)

/-- Numbers a constant. -/
def numberConst? (table : ValueTable) (action : Action) (dest : String) (literal : Literal) :
    Option Numbered :=
  match table.lookup? (.const literal) with
  | some number => some { action, number, table }
  | none => do
    let (number, table) ← push? table (.const literal) dest (some literal)
    return { action, number, table }

/-- Numbers a copy of its first argument. -/
def numberCopy? (place : Place) (table : ValueTable) (action : Action) (dest : String) (ty : Ty)
    (args : List String) : Option Numbered := do
  let (number, table) ← numberOrInput? table (← args[0]?)
  match table.constant? number with
  | some literal =>
    let (action, report) := becomeConst place dest ty literal
    return { action, number, table, log := [report] }
  | none => return { action, number, table }

/-- Whether there are two numbers and they are the same. -/
def areSame? (numbers : List Nat) : Option Bool :=
  if numbers.length = 2 then do return decide ((← numbers[0]?) = (← numbers[1]?)) else some false

/-- Numbers an expression that no held value has. -/
def numberNew? (place : Place) (table : ValueTable) (action : Action) (dest : String) (ty : Ty)
    (op : Opcode) (numbers : List Nat) (expr : Expr) : Option Numbered := do
  match fold op (numbers.map table.constant?) (← areSame? numbers) with
  | some literal =>
    let (action, report) := becomeConst place dest ty literal
    match table.lookup? (.const literal) with
    | some number => return { action, number, table := table.index expr number, log := [report] }
    | none =>
      let (number, table) ← push? table expr dest (some literal)
      return { action, number, table, log := [report] }
  | none =>
    let (number, table) ← push? table expr dest none
    return { action, number, table }

/-- Numbers an operation without side effects. -/
def numberPure? (place : Place) (table : ValueTable) (action : Action) (dest : String) (ty : Ty)
    (op : Opcode) (args : List String) : Option Numbered := do
  let (numbers, table) ← numbersOf? args table
  let expr := Expr.ofOp op numbers
  match table.lookup? expr with
  | none => numberNew? place table action dest ty op numbers expr
  | some number =>
    match table.constant? number, table.canonical? number with
    | some literal, _ =>
      let (action, report) := becomeConst place dest ty literal
      return { action, number, table, log := [report] }
    | none, some canonical =>
      return { action := .compute .id dest ty { args := [canonical] }, number, table,
               log := [place.report .expressionReused (dest ++ " = id " ++ canonical)] }
    | none, none => return { action, number, table }

/-- Numbers an instruction that writes a variable. -/
def numberWrite? (place : Place) (table : ValueTable) (action : Action) (dest : String) (ty : Ty) :
    Option Numbered :=
  let unknown : Option Numbered := do
    let (number, table) ← pushOpaque? table dest
    return { action, number, table }
  match action with
  | .const _ _ literal => numberConst? table action dest literal
  | .compute op _ _ operands =>
    if op = .id ∧ operands.args.length = 1 then
      numberCopy? place table action dest ty operands.args
    else if op.isPure ∧ op ≠ .undef then numberPure? place table action dest ty op operands.args
    else unknown
  | _ => unknown

/-- Numbers an instruction; labels and merges are left alone. -/
def numberInstr? (place : Place) (table : ValueTable) (instr : Instr) :
    Option (Instr × ValueTable × Log) :=
  if instr.isLabel ∨ instr.isPhi then some (instr, table, [])
  else do
    let (args, table, copies) ← canonicalizeArgs? place instr.args table
    let action := instr.action.mapOperands fun operands => { operands with args }
    match action.dest?, action.ty? with
    | some dest, some ty =>
      let numbered ← numberWrite? place table action dest ty
      return ({ instr with action := numbered.action }, numbered.table.bind dest numbered.number,
        copies ++ numbered.log)
    | _, _ => return ({ instr with action }, table, copies)

section Instructions

variable {place : Place} {action : Action} {dest : String} {ty : Ty}

/-- The checks on the canonical variables of arguments pass. -/
theorem canonicalizeArgs?_eq (place : Place) (args : List String) (table : ValueTable) :
    canonicalizeArgs? place args table = some (canonicalizeArgs place args table) := by
  induction args generalizing table with
  | nil => rfl
  | cons arg rest restIH =>
    rw [canonicalizeArgs?, numberOrInput?_eq, some_bind]
    dsimp only
    rw [restIH]
    rfl

/-- The checks on the numbers of arguments pass. -/
theorem numbersOf?_eq (args : List String) (table : ValueTable) :
    numbersOf? args table = some (numbersOf args table) := by
  induction args generalizing table with
  | nil => rfl
  | cons arg rest restIH =>
    rw [numbersOf?, numberOrInput?_eq, some_bind]
    dsimp only
    rw [restIH]
    rfl

/-- The check on the number of a constant passes. -/
theorem numberConst?_eq (table : ValueTable) (action : Action) (dest : String) (literal : Literal) :
    numberConst? table action dest literal = some (numberConst table action dest literal) := by
  rw [numberConst?, numberConst]
  cases table.lookup? (.const literal) with
  | some number => rfl
  | none =>
    dsimp only
    rw [push?_eq]
    rfl

/-- The checks on a copy of the only argument pass. -/
theorem numberCopy?_eq (table : ValueTable) (source : String) :
    numberCopy? place table action dest ty [source] =
      some (numberCopy place table action dest ty source) := by
  rw [numberCopy?, numberCopy]
  show numberOrInput? table source >>= _ = _
  rw [numberOrInput?_eq, some_bind]
  dsimp only
  cases (table.numberOrInput source).2.constant? (table.numberOrInput source).1 <;> rfl

/-- Whether there are two numbers and they are the same, told by the shape of the list. -/
def areSame (numbers : List Nat) : Bool :=
  match numbers with
  | [left, right] => left = right
  | _ => false

/-- The checks on two operands pass. -/
theorem areSame?_eq (numbers : List Nat) : areSame? numbers = some (areSame numbers) := by
  rcases numbers with _ | ⟨left, _ | ⟨right, _ | ⟨third, rest⟩⟩⟩ <;> rfl

/-- The checks on a new expression pass. -/
theorem numberNew?_eq (table : ValueTable) (op : Opcode) (numbers : List Nat) (expr : Expr) :
    numberNew? place table action dest ty op numbers expr =
      some (numberNew place table action dest ty op numbers expr) := by
  rw [numberNew?, areSame?_eq, some_bind]
  unfold numberNew
  show _ = some (match fold op (numbers.map table.constant?) (areSame numbers) with
    | some literal => _
    | none => _)
  cases fold op (numbers.map table.constant?) (areSame numbers) with
  | none =>
    dsimp only
    rw [push?_eq]
    rfl
  | some literal =>
    dsimp only
    cases table.lookup? (.const literal) with
    | some number => rfl
    | none =>
      dsimp only
      rw [push?_eq]
      rfl

/-- The checks on an operation without side effects pass. -/
theorem numberPure?_eq (table : ValueTable) (op : Opcode) (args : List String) :
    numberPure? place table action dest ty op args =
      some (numberPure place table action dest ty op args) := by
  rw [numberPure?, numbersOf?_eq, some_bind, numberPure]
  dsimp only
  generalize numbersOf args table = numbered
  obtain ⟨numbers, table⟩ := numbered
  dsimp only
  cases table.lookup? (Expr.ofOp op numbers) with
  | none => exact numberNew?_eq ..
  | some number =>
    dsimp only
    cases table.constant? number with
    | some literal => rfl
    | none => cases table.canonical? number <;> rfl

/-- The checks on an instruction that writes a variable pass. -/
theorem numberWrite?_eq (table : ValueTable) :
    numberWrite? place table action dest ty = some (numberWrite place table action dest ty) := by
  unfold numberWrite numberWrite?
  dsimp only
  rw [pushOpaque?_eq, some_bind]
  cases action with
  | const name type literal => exact numberConst?_eq ..
  | compute op name type operands =>
    dsimp only
    by_cases isCopy : op = .id ∧ operands.args.length = 1
    · obtain ⟨rfl, single⟩ := isCopy
      obtain ⟨source, isSource⟩ := List.length_eq_one_iff.1 single
      rw [if_pos ⟨rfl, single⟩, isSource, numberCopy?_eq]
    · have other : ∀ source, op = .id → operands.args = [source] → False :=
        fun source isId isSource => isCopy ⟨isId, isSource ▸ rfl⟩
      rw [if_neg isCopy]
      by_cases isPure : op.isPure = true ∧ op ≠ .undef
      · rw [if_pos isPure, numberPure?_eq]
        split
        · exact (other _ rfl ‹_›).elim
        · rw [if_pos isPure]
      · rw [if_neg isPure]
        split
        · exact (other _ rfl ‹_›).elim
        · rw [if_neg isPure]
          rfl
  | effect op operands => rfl
  | label name => rfl

/-- The checks on an instruction pass. -/
theorem numberInstr?_eq (place : Place) (table : ValueTable) (instr : Instr) :
    numberInstr? place table instr = some (numberInstr place table instr) := by
  rw [numberInstr?, numberInstr]
  split
  · rfl
  · rw [canonicalizeArgs?_eq, some_bind]
    dsimp only
    generalize instr.action.mapOperands _ = action
    cases action.dest? with
    | none => rfl
    | some dest =>
      cases action.ty? with
      | none => rfl
      | some ty =>
        dsimp only
        rw [numberWrite?_eq]
        rfl

end Instructions

end Checked

end Midend
