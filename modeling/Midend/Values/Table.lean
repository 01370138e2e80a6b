import Midend.Literal
import Midend.Opcode
import Midend.Sorted.Map

/-! # Value tables

A value table numbers values. Each number has a row with the variable that first held the value, the
expression that computed it and its constant if it is known. Variables and expressions are mapped to
numbers; a variable may be written again, so a row's variable is used only while it still holds the
row's value. Every change of the two maps is written to a journal, from which `rollback` restores an
earlier state. -/

namespace Midend

/-- How a value comes about, in terms of the numbers of other values. -/
inductive Expr where
  /-- A constant. -/
  | const (value : Literal)
  /-- An operation on values. -/
  | op (op : Opcode) (args : List Nat)
  /-- A merge in a block, with the values and the blocks they come from. -/
  | phi (block : String) (incoming : List (String × Nat))
  deriving DecidableEq, Repr

namespace Expr

/-- An operation on values; where their order does not matter they are sorted. -/
def ofOp (op : Opcode) (args : List Nat) : Expr :=
  .op op (if op.isCommutative then sortBy (· ≤ ·) args else args)

/-- A merge, with its values sorted by where they come from. -/
def ofPhi (block : String) (incoming : List (String × Nat)) : Expr :=
  .phi block (sortBy (fun left right =>
    left.1 < right.1 || (left.1 = right.1 && left.2 ≤ right.2)) incoming)

/-- The text of an expression. -/
def render : Expr → String
  | .const value => "const " ++ value.render
  | .op operation args => operation.name ++ " [" ++ ", ".intercalate (args.map toString) ++ "]"
  | .phi block incoming =>
    "phi " ++ block ++ " [" ++ ",".intercalate (incoming.map fun (label, number) =>
      "[" ++ Json.quote label ++ "," ++ toString number ++ "]") ++ "]"

end Expr

/-- What is known about a value. -/
structure Row where
  /-- The expression that computed it, if one is known. -/
  expr : Option Expr
  /-- The variable that first held it. -/
  var : String
  /-- The constant that it is, if it is one. -/
  constant : Option Literal
  deriving DecidableEq, Repr

/-- A change of one of the maps, with what stood there before. -/
inductive Undo where
  /-- A variable was mapped to a number. -/
  | var (name : String) (previous : Option Nat)
  /-- An expression was mapped to a number. -/
  | expr (expr : Expr) (previous : Option Nat)
  deriving DecidableEq, Repr

/-- The numbers of expressions, in the order in which they were first added. -/
abbrev ExprIndex := List (Expr × Nat)

namespace ExprIndex

/-- The number of an expression. -/
def get? : ExprIndex → Expr → Option Nat
  | [], _ => none
  | (head, number) :: tail, expr => if head = expr then some number else get? tail expr

/-- Sets the number of an expression. -/
def insert : ExprIndex → Expr → Nat → ExprIndex
  | [], expr, number => [(expr, number)]
  | (head, current) :: tail, expr, number =>
    if head = expr then (head, number) :: tail else (head, current) :: insert tail expr number

/-- Removes an expression. -/
def erase : ExprIndex → Expr → ExprIndex
  | [], _ => []
  | (head, number) :: tail, expr =>
    if head = expr then tail else (head, number) :: erase tail expr

end ExprIndex

/-- A numbering of values. -/
structure ValueTable where
  /-- The values in the order of their numbers. -/
  rows : List Row := []
  /-- The numbers of expressions. -/
  exprs : ExprIndex := []
  /-- The numbers of variables. -/
  vars : SortedMap String Nat := .empty
  /-- The changes of the maps, the last one first. -/
  journal : List Undo := []
  deriving DecidableEq

/-- The extent of a table at some time. -/
structure Checkpoint where
  /-- The number of rows. -/
  rows : Nat
  /-- The number of changes. -/
  journal : Nat
  deriving DecidableEq, Repr

namespace ValueTable

/-! ## Questions -/

/-- The number of values. -/
def size (table : ValueTable) : Nat := table.rows.length

/-- The row of a number. -/
def row? (table : ValueTable) (number : Nat) : Option Row := table.rows[number]?

/-- The number of a variable. -/
def numberOf? (table : ValueTable) (var : String) : Option Nat := table.vars.get? var

/-- Whether the variable of a row still holds the row's value. -/
def holds (table : ValueTable) (number : Nat) : Bool :=
  match table.row? number with
  | some row => table.numberOf? row.var = some number
  | none => false

/-- The number of an expression whose value is still held by its row's variable. -/
def lookup? (table : ValueTable) (expr : Expr) : Option Nat :=
  (table.exprs.get? expr).filter table.holds

/-- The constant of a number, if it is known. -/
def constant? (table : ValueTable) (number : Nat) : Option Literal :=
  (table.row? number).bind Row.constant

/-- The variable that stands for a number, while it holds it. -/
def canonical? (table : ValueTable) (number : Nat) : Option String :=
  if table.holds number then (table.row? number).map Row.var else none

/-! ## Changes -/

/-- Adds a value of which nothing is known. -/
def pushOpaque (table : ValueTable) (var : String) : Nat × ValueTable :=
  (table.size, { table with rows := table.rows ++ [⟨none, var, none⟩] })

/-- Maps an expression to a number. -/
def index (table : ValueTable) (expr : Expr) (number : Nat) : ValueTable :=
  { table with
    exprs := ExprIndex.insert table.exprs expr number
    journal := .expr expr (ExprIndex.get? table.exprs expr) :: table.journal }

/-- Maps a variable to a number. -/
def bind (table : ValueTable) (var : String) (number : Nat) : ValueTable :=
  { table with
    vars := table.vars.insert var number
    journal := .var var (table.vars.get? var) :: table.journal }

/-- Adds the value of an expression. A known constant can be found by its literal too, unless
another value is found so already. -/
def push (table : ValueTable) (expr : Expr) (var : String) (constant : Option Literal) :
    Nat × ValueTable :=
  let number := table.size
  let table : ValueTable := { table with rows := table.rows ++ [⟨some expr, var, constant⟩] }
  let table := table.index expr number
  match constant with
  | some literal =>
    if (table.lookup? (.const literal)).isNone then (number, table.index (.const literal) number)
    else (number, table)
  | none => (number, table)

/-- The number of a variable; one that has none gets a new value. -/
def numberOrInput (table : ValueTable) (var : String) : Nat × ValueTable :=
  match table.numberOf? var with
  | some number => (number, table)
  | none =>
    let (number, table) := table.pushOpaque var
    (number, table.bind var number)

/-- Adds a value of which nothing is known and maps its variable to it. -/
def define (table : ValueTable) (var : String) : ValueTable :=
  let (number, table) := table.pushOpaque var
  table.bind var number

/-! ## Scopes -/

/-- The extent of the table. -/
def checkpoint (table : ValueTable) : Checkpoint := ⟨table.rows.length, table.journal.length⟩

/-- Takes back one change of the maps. -/
def undo (table : ValueTable) : Undo → ValueTable
  | .var name (some number) => { table with vars := table.vars.insert name number }
  | .var name none => { table with vars := table.vars.erase name }
  | .expr expr (some number) => { table with exprs := ExprIndex.insert table.exprs expr number }
  | .expr expr none => { table with exprs := ExprIndex.erase table.exprs expr }

/-- Takes back several changes, the last one first. -/
def undoAll (table : ValueTable) (changes : List Undo) : ValueTable := changes.foldl undo table

/-- Takes back all changes since a checkpoint and drops the rows added since. -/
def rollback (table : ValueTable) (checkpoint : Checkpoint) : ValueTable :=
  let excess := table.journal.length - checkpoint.journal
  let restored := table.undoAll (table.journal.take excess)
  { restored with
    rows := table.rows.take checkpoint.rows
    journal := table.journal.drop excess }

end ValueTable

end Midend
