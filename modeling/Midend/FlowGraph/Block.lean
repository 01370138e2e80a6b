import Midend.Program

/-! # Basic blocks

A basic block is a named list of instructions: merges first, then the body, then the instruction
that ends it. The successors of a block are what that last instruction names. -/

namespace Midend

/-- A basic block. -/
structure Block where
  /-- The name. -/
  name : String
  /-- The instructions. -/
  instrs : List Instr
  deriving DecidableEq, Repr

namespace Block

/-- The last instruction, if it ends a block. -/
def terminator? (block : Block) : Option Instr := block.instrs.getLast?.filter Instr.isTerminator

/-- Changes the last instruction, if it ends a block. -/
def mapTerminator (change : Instr → Instr) (block : Block) : Block :=
  match block.terminator? with
  | some terminator => { block with instrs := block.instrs.dropLast ++ [change terminator] }
  | none => block

/-- The names that a jump or branch leads to, each listed once. -/
def successors (block : Block) : List String :=
  match block.terminator? with
  | some terminator =>
    match terminator.op? with
    | some .jmp => terminator.labels.eraseDups
    | some .br => terminator.labels.eraseDups
    | _ => []
  | none => []

/-- The leading merges. -/
def phis (block : Block) : List Instr := block.instrs.takeWhile Instr.isPhi

/-- The number of leading merges. -/
def phiCount (block : Block) : Nat := block.phis.length

/-- The instructions after the leading merges. -/
def body (block : Block) : List Instr := block.instrs.dropWhile Instr.isPhi

/-- Changes the leading merges. -/
def mapPhis (change : Instr → Instr) (block : Block) : Block :=
  { block with instrs := block.phis.map change ++ block.body }

/-- Where code may be added that runs before the block ends. -/
def insertionPoint (block : Block) : Nat :=
  if block.terminator?.isSome then block.instrs.length - 1 else block.instrs.length

/-- Adds instructions at a position; a position past the end counts as the end. -/
def insertAt (block : Block) (position : Nat) (instrs : List Instr) : Block :=
  { block with instrs := block.instrs.take position ++ instrs ++ block.instrs.drop position }

/-- The variables written, in order. -/
def defs (block : Block) : List String := block.instrs.filterMap Instr.dest?

end Block

end Midend
