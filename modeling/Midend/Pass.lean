import Midend.DeadCode
import Midend.Values.Global
import Midend.Values.Local

/-! # Passes

A pass changes the flow graph of one function. A `Schedule` repeats a list of passes until a whole
round of them changes nothing. A pass that fails leaves what it did before it failed. -/

namespace Midend

/-- A change of the flow graph of one function. -/
inductive Pass where
  /-- Local value numbering. -/
  | localNumbering
  /-- Global value numbering. -/
  | globalNumbering
  /-- Dead code elimination, with a limit on its rounds if one is given. -/
  | deadCode (limit : Option Nat)
  deriving DecidableEq, Repr

/-- What became of a flow graph that was worked on. -/
structure Outcome (α : Type) where
  /-- The flow graph afterwards. -/
  graph : FlowGraph
  /-- What was reported. -/
  log : Log
  /-- The answer, or why there is none. -/
  result : Except Error α

namespace Pass

/-- The name of a pass. -/
def name : Pass → String
  | .localNumbering => LocalNumbering.passName
  | .globalNumbering => GlobalNumbering.passName
  | .deadCode _ => DeadCode.passName

/-- What a pass does, in one line. -/
def description : Pass → String
  | .localNumbering => "Folds constants and reuses available expressions within each block"
  | .globalNumbering => "Eliminates redundant computations and phis along the dominator tree"
  | .deadCode _ => "Removes pure instructions whose results are never read"

/-- Whether a pass needs code in single assignment. -/
def requiresSsa : Pass → Bool
  | .globalNumbering => true
  | _ => false

/-- The passes, without limits of their own. -/
def all : List Pass := [.localNumbering, .globalNumbering, .deadCode none]

/-- The pass of a name. -/
def ofName? (name : String) : Option Pass := all.find? fun pass => pass.name == name

/-- Runs a pass; the answer says whether it changed anything. -/
def run (pass : Pass) (graph : FlowGraph) : Outcome Bool :=
  match pass with
  | .localNumbering =>
    let (graph, log) := LocalNumbering.run graph
    ⟨graph, log, .ok !log.isEmpty⟩
  | .globalNumbering =>
    match GlobalNumbering.run graph with
    | .ok (graph, log) => ⟨graph, log, .ok !log.isEmpty⟩
    | .error error => ⟨graph, [], .error error⟩
  | .deadCode limit =>
    let (graph, log, result) := DeadCode.run graph limit
    ⟨graph, log, result.map fun _ => !log.isEmpty⟩

end Pass

/-- Passes that are repeated until they change nothing. -/
structure Schedule where
  /-- The passes in the order in which they run. -/
  passes : List Pass := []
  /-- The number of rounds after which to give up; less than one counts as one. -/
  limit : Nat := 16
  deriving DecidableEq, Repr

namespace Schedule

/-- Runs passes one after another, up to the first that fails; the answer says whether any of them
changed anything. -/
def runOnce : List Pass → FlowGraph → Outcome Bool
  | [], graph => ⟨graph, [], .ok false⟩
  | pass :: rest, graph =>
    let first := pass.run graph
    match first.result with
    | .error _ => first
    | .ok changed =>
      let others := runOnce rest first.graph
      ⟨others.graph, first.log ++ others.log, others.result.map (changed || ·)⟩

/-- Runs rounds, the first of which has the number `round`, until one changes nothing; the answer is
the number of that round, or none if `budget` rounds do not get there. -/
def runRounds (passes : List Pass) : (budget round : Nat) → FlowGraph → Outcome (Option Nat)
  | 0, _, graph => ⟨graph, [], .ok none⟩
  | budget + 1, round, graph =>
    let first := runOnce passes graph
    match first.result with
    | .error error => ⟨first.graph, first.log, .error error⟩
    | .ok false => ⟨first.graph, first.log, .ok (some round)⟩
    | .ok true =>
      let others := runRounds passes budget (round + 1) first.graph
      ⟨others.graph, first.log ++ others.log, others.result⟩

/-- Repeats the passes until they change nothing; the answer is the number of rounds, the last
included. -/
def run (schedule : Schedule) (graph : FlowGraph) : Outcome Nat :=
  let limit := max schedule.limit 1
  let outcome := runRounds schedule.passes limit 1 graph
  let result := outcome.result.bind fun
    | some rounds => .ok rounds
    | none => .error (.nonConvergence "pass scheduler" limit)
  ⟨outcome.graph, outcome.log, result⟩

end Schedule

end Midend
