import Midend.FlowGraph.Edit
import Midend.Registers.Interference

/-! # Coalescing

A copy between variables that may share a register is made superfluous by giving both one name.
Parameters keep their names, so two of them are never merged. -/

namespace Midend

namespace Coalescing

/-- The sides of an instruction that copies a variable: the one written and the one read. -/
def copySides? (instr : Instr) : Option (String × String) :=
  match instr.action with
  | .compute .id dest _ operands =>
    match operands.args with
    | [source] => some (dest, source)
    | _ => none
  | _ => none

/-- How the sides of a copy can be merged: the variable to rename and its new name. -/
def mergeOf? (interference : Interference) (params : List String) (dest source : String) :
    Option (String × String) :=
  if dest = source ∨ interference.interferes dest source then none
  else
    match params.contains dest, params.contains source with
    | true, true => none
    | false, true => some (dest, source)
    | _, false => some (source, dest)

/-- The first copy whose sides can be merged, as the variable to rename and its new name. -/
def nextMerge? (graph : FlowGraph) (interference : Interference) : Option (String × String) :=
  graph.instrs.findSome? fun instr =>
    (copySides? instr).bind fun (dest, source) =>
      mergeOf? interference graph.paramNames dest source

/-- Gives a variable another name in all instructions. -/
def rename (graph : FlowGraph) (old new : String) : FlowGraph :=
  let change := FlowGraph.replaceName old new
  { graph with
    blocks := graph.blocks.map fun block =>
      { block with instrs := block.instrs.map fun instr => (instr.mapArgs change).mapDest change } }

/-- Whether an instruction copies a variable to itself. -/
def isSelfCopy (instr : Instr) : Bool :=
  match copySides? instr with
  | some (dest, source) => dest = source
  | none => false

/-- Removes the instructions that copy a variable to itself. -/
def removeSelfCopies (graph : FlowGraph) : FlowGraph :=
  { graph with
    blocks := graph.blocks.map fun block =>
      { block with instrs := block.instrs.filter fun instr => !isSelfCopy instr } }

/-- Merges the sides of copies until no copy allows it, `budget` times at most; answers the merges
in order. -/
def mergeCopies : (budget : Nat) → FlowGraph → Interference →
    FlowGraph × Interference × List (String × String)
  | 0, graph, interference => (graph, interference, [])
  | budget + 1, graph, interference =>
    match nextMerge? graph interference with
    | none => (graph, interference, [])
    | some (old, new) =>
      let (graph, interference, merges) :=
        mergeCopies budget (rename graph old new) (interference.merge old new)
      (graph, interference, (old, new) :: merges)

/-- Merges the sides of copies and removes the copies that this makes superfluous. Each merge makes
at least one more copy superfluous, so there are no more merges than instructions. -/
def run (graph : FlowGraph) (interference : Interference) : FlowGraph × Interference × Log :=
  let (graph, interference, merges) := mergeCopies graph.instructionCount graph interference
  let log := merges.map fun (old, new) =>
    { kind := .copyCoalesced, function := some graph.name, pass := some "regalloc",
      message := old ++ " -> " ++ new }
  (removeSelfCopies graph, interference, log)

end Coalescing

end Midend
