import Midend.Settings

/-! # Sessions

The flow graphs of the functions of a program while they are worked on. A function that fails is
taken out and its error kept; the others go on. Only a fatal error ends the work on all of them. -/

namespace Midend

/-- The functions of a program at work. -/
structure Session where
  /-- What is done to them. -/
  settings : Settings := {}
  /-- The flow graphs by the names of their functions. -/
  graphs : SortedMap String FlowGraph := .empty
  /-- The errors of the functions that failed. -/
  failures : SortedMap String Error := .empty
  /-- What was reported. -/
  log : Log := []
  deriving DecidableEq

namespace Session

/-- The names of the functions still at work, in order. -/
def names (session : Session) : List String := session.graphs.keys

/-- Adds a flow graph, or replaces the one of its function. -/
def insert (session : Session) (graph : FlowGraph) : Session :=
  { session with graphs := session.graphs.insert graph.name graph }

/-- Takes out the flow graph of a function. -/
def take (session : Session) (function : String) : Option FlowGraph × Session :=
  (session.graphs.get? function, { session with graphs := session.graphs.erase function })

/-- Adds reports. -/
def report (session : Session) (log : Log) : Session := { session with log := session.log ++ log }

/-- Takes out a function that failed and keeps its error. -/
def fail (session : Session) (function : String) (error : Error) : Session :=
  let event : Event := { kind := .error, function := some function, message := error.message }
  { session with
    graphs := session.graphs.erase function
    failures := session.failures.insert function error
    log := session.log ++ [event] }

/-- Whether a function failed. -/
def isFailed (session : Session) (function : String) : Bool := session.failures.contains function

/-- Records that a function failed, unless the error is fatal. -/
def failIn (session : Session) (function : String) (error : Error) : Except Error Session :=
  if error.isFatal then .error error else .ok (session.fail function (error.inFunction function))

/-- Works on one function; the work answers a number. A function that is not there is passed over,
and one that fails is taken out. The answer is no less than `floor`. -/
def workOn (session : Session) (work : FlowGraph → Outcome Nat) (floor : Nat) (function : String) :
    Except Error (Nat × Session) :=
  match session.graphs.get? function with
  | none => .ok (floor, session)
  | some graph =>
    let outcome := work graph
    let session := session.report outcome.log
    match outcome.result with
    | .ok answer => .ok (max floor answer, session.insert outcome.graph)
    | .error error => (session.failIn function error).map (floor, ·)

/-- Works on functions one after another; answers the largest answer, or `floor`. -/
def workOnAll (work : FlowGraph → Outcome Nat) :
    (functions : List String) → (floor : Nat) → Session → Except Error (Nat × Session)
  | [], floor, session => .ok (floor, session)
  | function :: rest, floor, session => do
    let (floor, session) ← session.workOn work floor function
    workOnAll work rest floor session

/-- A stage that may fail, as work on a flow graph. -/
def stageWork (stage : FlowGraph → Except Error (FlowGraph × Log)) (graph : FlowGraph) :
    Outcome Nat :=
  match stage graph with
  | .ok (graph, log) => ⟨graph, log, .ok 0⟩
  | .error error => ⟨graph, [], .error error⟩

/-- Takes every function through a stage. -/
def applyStage (session : Session) (stage : FlowGraph → Except Error (FlowGraph × Log)) :
    Except Error Session :=
  (workOnAll (stageWork stage) session.names 0 session).map Prod.snd

/-- Runs a schedule on every function; answers the largest number of rounds that one needed. -/
def runSchedule (session : Session) (schedule : Schedule) : Except Error (Nat × Session) := do
  if schedule.passes.isEmpty then return (0, session)
  let note (kind : Event.Kind) (message : Pass → String) : Log :=
    schedule.passes.map fun pass => { kind, pass := some pass.name, message := message pass }
  let session := session.report (note .passStarted Pass.description)
  let (rounds, session) ← workOnAll schedule.run session.names 0 session
  return (rounds, session.report (note .passCompleted fun _ => toString rounds ++ " rounds"))

end Session

end Midend
