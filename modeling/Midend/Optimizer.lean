import Midend.FlowGraph.Build
import Midend.Session
import Midend.Ssa.Destruct
import Midend.Statistics

/-! # Optimizer

Takes the functions of a program into flow graphs and single assignment, runs the passes, and takes
them back. A function that fails on the way keeps its body and its error is reported. -/

namespace Midend

/-- What became of a program. -/
structure Optimized where
  /-- The program, its functions in their order. -/
  program : Program
  /-- What was reported. -/
  log : Log
  /-- The functions that failed and why, by name. -/
  failures : List (String × Error)
  /-- What was changed. -/
  statistics : Statistics

/-- The text of what became of a program: the counts, then the failures. -/
def Optimized.render (optimized : Optimized) : String :=
  optimized.statistics.render ++ String.join (optimized.failures.map fun (function, error) =>
    "\n  " ++ function ++ ": " ++ error.message)

namespace Optimizer

/-- Adds the flow graphs of functions to a session. -/
def insertFunctions : List Func → Session → Except Error Session
  | [], session => .ok session
  | function :: rest, session => do
    let session ← match FlowGraph.build function with
      | .ok (graph, log) => pure ((session.report log).insert graph)
      | .error error => session.failIn function.name error
    insertFunctions rest session

/-- Takes the functions of a session through all stages; answers the number of rounds too. -/
def runStages (session : Session) : Except Error (Nat × Session) := do
  let ssa := session.settings.ssa
  let session ← if ssa then session.applyStage Ssa.construct else pure session
  let (rounds, session) ← session.runSchedule session.settings.schedule
  let session ← if ssa then session.applyStage Ssa.destruct else pure session
  return (rounds, session)

/-- The code that a session has for a function: that of its flow graph, or its own if there is
none. -/
def finished (session : Session) (function : Func) : Except Error Func :=
  match session.graphs.get? function.name with
  | some graph => graph.flatten
  | none => .ok function

/-- Optimizes the functions of a program. -/
def run (settings : Settings) (program : Program) : Except Error Optimized := do
  program.checkLinkage
  let session ← insertFunctions program.functions { settings }
  let (rounds, session) ← runStages session
  let functions ← program.functions.mapM (finished session)
  return { program := ⟨functions⟩, log := session.log, failures := session.failures.toList,
           statistics := { Statistics.ofLog session.log with iterations := rounds } }

/-- Optimizes a function that calls no other one. -/
def runFunction (settings : Settings) (function : Func) : Except Error Func := do
  let optimized ← run settings ⟨[function]⟩
  match optimized.failures.getLast?, optimized.program.functions.getLast? with
  | some (_, error), _ => throw error
  | none, some function => return function
  | none, none => throw (.functionNotFound function.name)

end Optimizer

end Midend
