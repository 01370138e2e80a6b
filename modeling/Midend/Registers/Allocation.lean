import Midend.FlowGraph.Build
import Midend.Registers.Coalesce
import Midend.Registers.Coloring
import Midend.Ssa.Destruct

/-! # Register allocation

Merges are turned into copies, copies are coalesced, and the variables that are left get registers.
There is no spilling: a function that needs more registers than there are gets none. -/

namespace Midend

/-- A function whose variables got registers, or could not get them. -/
structure AllocatedFunc where
  /-- The function after its copies were coalesced. -/
  function : Func
  /-- The interference of its variables. -/
  interference : Interference
  /-- The registers, or the error that there are too few. -/
  coloring : Except Error Coloring
  /-- What was reported. -/
  log : Log

/-- A program whose variables got registers. -/
structure Allocation where
  /-- The program after copies were coalesced. -/
  program : Program
  /-- The registers of each function that could be analysed, or the error that there are too few. -/
  colorings : SortedMap String (Except Error Coloring)
  /-- The functions that could not be analysed and why, in program order. -/
  errors : List (String × Error)
  /-- What was reported. -/
  log : Log

namespace Allocation

/-- Whether every function got registers. -/
def isComplete (allocation : Allocation) : Bool :=
  allocation.errors.isEmpty && allocation.colorings.values.all Except.isOk

/-- Why functions got no registers, by function name. -/
def failures (allocation : Allocation) : List Error :=
  allocation.colorings.values.filterMap fun
    | .error error => some error
    | .ok _ => none

/-- The flow graph of a function, its merges turned into copies. -/
def withoutPhis (function : Func) : Except Error FlowGraph := do
  let graph ← FlowGraph.ofFunc function
  if graph.blocks.any fun block => block.phiCount ≠ 0 then
    return (← Ssa.destruct graph).1
  else return graph

/-- The interference of a flow graph. -/
def interferenceOf (graph : FlowGraph) : Except Error Interference := do
  return .ofLiveness graph (← Liveness.analysis.solve graph)

/-- Gives the variables of a function registers. -/
def ofFunc (registers : List String) (function : Func) : Except Error AllocatedFunc := do
  let graph ← withoutPhis function
  let (graph, interference, log) := Coalescing.run graph (← interferenceOf graph)
  let coloring := match Coloring.ofInterference interference registers with
    | .ok coloring => .ok coloring
    | .error remaining => .error (.allocationFailed function.name remaining)
  return { function := ← graph.flatten, interference, coloring, log }

/-- Adds what became of a function. One that could not be analysed keeps its body. -/
def add (allocation : Allocation) (function : Func) :
    Except Error AllocatedFunc → Except Error Allocation
  | .ok allocated =>
    .ok { program := ⟨allocation.program.functions ++ [allocated.function]⟩
          colorings := allocation.colorings.insert allocated.function.name allocated.coloring
          errors := allocation.errors
          log := allocation.log ++ allocated.log }
  | .error error =>
    if error.isFatal then .error error
    else
      .ok { allocation with
        program := ⟨allocation.program.functions ++ [function]⟩
        errors := allocation.errors ++ [(function.name, error.inFunction function.name)] }

/-- Gives the variables of every function of a program registers. -/
def ofProgram (registers : List String) (program : Program) : Except Error Allocation := do
  program.checkLinkage
  let start : Allocation := { program := {}, colorings := .empty, errors := [], log := [] }
  program.functions.foldlM
    (fun allocation function => allocation.add function (ofFunc registers function)) start

end Allocation

end Midend
