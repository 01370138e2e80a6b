import Midend.Program.Json
import Midend.Proofs.Checked.Construct
import Midend.Proofs.Checked.Passes
import Midend.Proofs.Checked.Registers
import Midend.Proofs.Optimizer

/-! # Checked work on programs

A session whose flow graphs keep an index of their blocks takes the functions of a program through the
stages of the optimizer, each of which begins with the index that the one before it left. All checks on
the way pass, whatever the program is, and so do those of the register allocation that comes after it:
a run with checks answers what it answers without them, be it the fatal error that keys have run out
(`Checked.checks_pass`). -/

namespace Midend

namespace Checked

/-- The functions of a program at work, with the places of their blocks. -/
structure IndexedSession where
  /-- What is done to them. -/
  settings : Settings := {}
  /-- The flow graphs by the names of their functions. -/
  graphs : SortedMap String Indexed := .empty
  /-- The errors of the functions that failed. -/
  failures : SortedMap String Error := .empty
  /-- What was reported. -/
  log : Log := []

namespace IndexedSession

/-- A session with new indices. -/
def of (session : Session) : IndexedSession :=
  ⟨session.settings, session.graphs.mapValues fun _ => .of, session.failures, session.log⟩

/-- Adds a flow graph, or replaces the one of its function. -/
def insert (session : IndexedSession) (indexed : Indexed) : IndexedSession :=
  { session with graphs := session.graphs.insert indexed.graph.name indexed }

/-- Adds reports. -/
def report (session : IndexedSession) (log : Log) : IndexedSession :=
  { session with log := session.log ++ log }

/-- Takes out a function that failed and keeps its error. -/
def fail (session : IndexedSession) (function : String) (error : Error) : IndexedSession :=
  let event : Event := { kind := .error, function := some function, message := error.message }
  { session with
    graphs := session.graphs.erase function
    failures := session.failures.insert function error
    log := session.log ++ [event] }

/-- Records that a function failed, unless the error is fatal. -/
def failIn (session : IndexedSession) (function : String) (error : Error) :
    Except Error IndexedSession :=
  if error.isFatal then .error error else .ok (session.fail function (error.inFunction function))

/-- Works on one function, in the flow graph that the session has for it. -/
def workOn? (session : IndexedSession) (work? : Indexed → Option (IndexedOutcome Nat)) (floor : Nat)
    (function : String) : Checked (Nat × IndexedSession) :=
  match session.graphs.get? function with
  | none => return (floor, session)
  | some indexed => do
    let outcome ← ofOption (work? indexed)
    let session := session.report outcome.log
    match outcome.result with
    | .ok answer => return (max floor answer, session.insert outcome.indexed)
    | .error error => return (floor, ← ofExcept (session.failIn function error))

/-- Works on functions one after another. -/
def workOnAll? (work? : Indexed → Option (IndexedOutcome Nat)) :
    (functions : List String) → (floor : Nat) → IndexedSession → Checked (Nat × IndexedSession)
  | [], floor, session => return (floor, session)
  | function :: rest, floor, session => do
    let (floor, session) ← session.workOn? work? floor function
    workOnAll? work? rest floor session

/-- A stage that may fail, as work on a flow graph. -/
def stageWork? (stage? : Indexed → Checked (Indexed × Log)) (indexed : Indexed) :
    Option (IndexedOutcome Nat) := do
  match ← (stage? indexed).run with
  | .ok (indexed, log) => return ⟨indexed, log, .ok 0⟩
  | .error error => return ⟨indexed, [], .error error⟩

/-- Takes every function through a stage. -/
def applyStage? (session : IndexedSession) (stage? : Indexed → Checked (Indexed × Log)) :
    Checked IndexedSession := do
  return (← workOnAll? (stageWork? stage?) session.graphs.keys 0 session).2

/-- Takes every function through a stage, if it is wanted. -/
def applyIf? (session : IndexedSession) (wanted : Bool)
    (stage? : Indexed → Checked (Indexed × Log)) : Checked IndexedSession :=
  if wanted then session.applyStage? stage? else return session

/-- Runs a schedule on every function. -/
def runSchedule? (session : IndexedSession) (schedule : Schedule) :
    Checked (Nat × IndexedSession) := do
  if schedule.passes.isEmpty then return (0, session)
  else
    let note (kind : Event.Kind) (message : Pass → String) : Log :=
      schedule.passes.map fun pass => { kind, pass := some pass.name, message := message pass }
    let session := session.report (note .passStarted Pass.description)
    let (rounds, session) ←
      workOnAll? (Checked.runSchedule? schedule) session.graphs.keys 0 session
    return (rounds, session.report (note .passCompleted fun _ => toString rounds ++ " rounds"))

end IndexedSession

open IndexedSession

/-- Adds the flow graphs of functions to a session. -/
def insertFunctions? : List Func → IndexedSession → Checked IndexedSession
  | [], session => return session
  | function :: rest, session => do
    let session ← match ← attempt (Indexed.build? function) with
      | .ok (indexed, log) => pure ((session.report log).insert indexed)
      | .error error => ofExcept (session.failIn function.name error)
    insertFunctions? rest session

/-- Takes the functions of a session through all stages; answers the number of rounds too. -/
def runStages? (session : IndexedSession) : Checked (Nat × IndexedSession) := do
  let ssa := session.settings.ssa
  let session ← session.applyIf? ssa construct?
  let (rounds, session) ← session.runSchedule? session.settings.schedule
  return (rounds, ← session.applyIf? ssa destruct?)

/-- The code that a session has for a function: that of its flow graph, or its own if there is
none. -/
def finished (session : IndexedSession) (function : Func) : Except Error Func :=
  match session.graphs.get? function.name with
  | some indexed => indexed.graph.flatten
  | none => .ok function

/-- Optimizes the functions of a program. -/
def optimize? (settings : Settings) (program : Program) : Checked Optimized := do
  ofExcept program.checkLinkage
  let session ← insertFunctions? program.functions { settings }
  let (rounds, session) ← runStages? session
  let functions ← ofExcept (program.functions.mapM (finished session))
  return { program := ⟨functions⟩, log := session.log, failures := session.failures.toList,
           statistics := { Statistics.ofLog session.log with iterations := rounds } }

/-- Reads a program, optimizes it and gives the variables of what comes of it registers. -/
def compile (settings : Settings) (text : String) : Except Error Allocation := do
  let program ← Program.ofJson text
  let optimized ← Optimizer.run settings program
  Allocation.ofProgram settings.registers optimized.program

/-- The same with all checks: those on the way into, through and out of the stages of the optimizer,
and those of the register allocation. -/
def compile? (settings : Settings) (text : String) : Checked Allocation := do
  let program ← ofExcept (Program.ofJson text)
  let optimized ← optimize? settings program
  allocate? settings.registers optimized.program

/-! ## Sessions -/

/-- The blocks of every flow graph of a session have names of their own. -/
def Indexable (session : Session) : Prop :=
  ∀ function graph, session.graphs.get? function = some graph → graph.names.Nodup

namespace Indexable

variable {session : Session}

/-- A flow graph is added whose blocks have names of their own. -/
theorem insert (indexable : Indexable session) {graph : FlowGraph} (nodup : graph.names.Nodup) :
    Indexable (session.insert graph) := by
  intro function other inSession
  rw [Session.insert, SortedMap.get?_insert_eq] at inSession
  split at inSession
  · exact Option.some.inj inSession ▸ nodup
  · exact indexable function other inSession

/-- A function that fails is taken out. -/
theorem failIn (indexable : Indexable session) {name : String} {error : Error} {after : Session}
    (failed : session.failIn name error = .ok after) : Indexable after := by
  rw [Session.failIn] at failed
  split at failed
  · cases failed
  · obtain rfl := Except.ok.inj failed
    intro function graph inSession
    rw [Session.fail, SortedMap.get?_erase_eq] at inSession
    split at inSession
    · cases inSession
    · exact indexable function graph inSession

end Indexable

namespace IndexedSession

variable {session : Session}

/-- The index of a flow graph goes into the session with it. -/
theorem of_insert (session : Session) (graph : FlowGraph) :
    of (session.insert graph) = (of session).insert (.of graph) := by
  rw [of, of, insert, Session.insert, SortedMap.mapValues_insert]
  rfl

/-- A function is taken out with its index. -/
theorem failIn_of (session : Session) (function : String) (error : Error) :
    (of session).failIn function error = (session.failIn function error).map of := by
  rw [failIn, Session.failIn]
  split
  · rfl
  · show _ = Except.ok (of (session.fail function _))
    rw [of, of, fail, Session.fail, SortedMap.mapValues_erase]

/-- Work that passes its checks on a flow graph whose blocks have names of their own, and leaves
another such. -/
def Works (work? : Indexed → Option (IndexedOutcome Nat)) (work : FlowGraph → Outcome Nat) : Prop :=
  ∀ graph, graph.names.Nodup → work? (.of graph) = some (.of (work graph)) ∧
    ∀ answer, (work graph).result = .ok answer → (work graph).graph.names.Nodup

section Work

variable {work? : Indexed → Option (IndexedOutcome Nat)} {work : FlowGraph → Outcome Nat}

/-- The checks on the work on one function pass. -/
theorem workOn?_eq (works : Works work? work) (indexable : Indexable session) (floor : Nat)
    (function : String) :
    (of session).workOn? work? floor function =
        ofExcept ((session.workOn work floor function).map fun done => (done.1, of done.2)) ∧
      ∀ done, session.workOn work floor function = .ok done → Indexable done.2 := by
  rw [workOn?, Session.workOn]
  cases inSession : session.graphs.get? function with
  | none =>
    have missing : (of session).graphs.get? function = none := by
      rw [of, SortedMap.get?_mapValues, inSession, Option.map_none]
    rw [missing]
    exact ⟨rfl, fun done same => Except.ok.inj same ▸ indexable⟩
  | some graph =>
    have present : (of session).graphs.get? function = some (.of graph) := by
      rw [of, SortedMap.get?_mapValues, inSession, Option.map_some]
    obtain ⟨passes, kept⟩ := works graph (indexable function graph inSession)
    rw [present]
    dsimp only
    rw [passes]
    generalize work graph = outcome at kept
    obtain ⟨after, log, error | answer⟩ := outcome
    · -- The function is taken out, unless its error ends all work.
      have failed := failIn_of (session.report log) function error
      refine ⟨?_, fun done isDone => ?_⟩
      · show ofExcept ((of (session.report log)).failIn function error) >>= _ =
          ofExcept ((((session.report log).failIn function error).map (floor, ·)).map _)
        rw [failed]
        cases (session.report log).failIn function error <;> rfl
      · obtain ⟨rest, isRest, rfl⟩ := Attempt.map_eq_ok.1 isDone
        exact @Indexable.failIn (session.report log) indexable _ _ _ isRest
    · refine ⟨?_, fun done isDone => ?_⟩
      · show ofExcept (.ok (max floor answer, (of (session.report log)).insert (.of after))) = _
        rw [← of_insert]
        rfl
      · obtain rfl := Except.ok.inj isDone
        exact @Indexable.insert (session.report log) indexable _ (kept answer rfl)

/-- The checks on the work on several functions pass. -/
theorem workOnAll?_eq (works : Works work? work) (functions : List String) (floor : Nat)
    (indexable : Indexable session) :
    workOnAll? work? functions floor (of session) =
        ofExcept ((Session.workOnAll work functions floor session).map fun done =>
          (done.1, of done.2)) ∧
      ∀ done, Session.workOnAll work functions floor session = .ok done → Indexable done.2 := by
  induction functions generalizing session floor with
  | nil => exact ⟨rfl, fun done same => Except.ok.inj same ▸ indexable⟩
  | cons function rest restIH =>
    obtain ⟨passes, kept⟩ := workOn?_eq works indexable floor function
    refine ⟨?_, fun done isDone => ?_⟩
    · rw [workOnAll?, Session.workOnAll]
      exact bind_map_eq passes fun first isFirst => (restIH first.1 (kept first isFirst)).1
    · obtain ⟨first, isFirst, isDone⟩ := Attempt.bind_eq_ok.1 isDone
      exact (restIH first.1 (kept first isFirst)).2 done isDone

/-- A stage whose checks pass and that leaves blocks with names of their own is such work. -/
theorem works_stageWork {stage? : Indexed → Checked (Indexed × Log)}
    {stage : FlowGraph → Except Error (FlowGraph × Log)}
    (passes : ∀ graph : FlowGraph, graph.names.Nodup →
      stage? (.of graph) = ofExcept ((stage graph).map fun done => (.of done.1, done.2)))
    (keeps : ∀ graph : FlowGraph, graph.names.Nodup → ∀ done, stage graph = .ok done →
      done.1.names.Nodup) :
    Works (stageWork? stage?) (Session.stageWork stage) := by
  intro graph nodup
  rw [stageWork?, passes graph nodup, Session.stageWork]
  cases isDone : stage graph with
  | error error => exact ⟨rfl, fun answer failed => by cases failed⟩
  | ok done => exact ⟨rfl, fun answer _ => keeps graph nodup done isDone⟩

end Work

/-- The functions of a session stay those that they are with new indices. -/
theorem keys_of (session : Session) : (of session).graphs.keys = session.names :=
  SortedMap.keys_mapValues ..

/-- The checks on a stage pass. -/
theorem applyStage?_eq {stage? : Indexed → Checked (Indexed × Log)}
    {stage : FlowGraph → Except Error (FlowGraph × Log)}
    (works : Works (stageWork? stage?) (Session.stageWork stage)) (indexable : Indexable session) :
    (of session).applyStage? stage? = ofExcept ((session.applyStage stage).map of) ∧
      ∀ after, session.applyStage stage = .ok after → Indexable after := by
  obtain ⟨passes, kept⟩ := workOnAll?_eq works session.names 0 indexable
  refine ⟨?_, fun after isAfter => ?_⟩
  · rw [applyStage?, keys_of, passes, Session.applyStage]
    cases Session.workOnAll (Session.stageWork stage) session.names 0 session <;> rfl
  · obtain ⟨done, isDone, rfl⟩ := Attempt.map_eq_ok.1 isAfter
    exact kept done isDone

/-- The checks on a stage pass, be it wanted or not. -/
theorem applyIf?_eq (wanted : Bool) {stage? : Indexed → Checked (Indexed × Log)}
    {stage : FlowGraph → Except Error (FlowGraph × Log)}
    (works : Works (stageWork? stage?) (Session.stageWork stage)) (indexable : Indexable session) :
    (of session).applyIf? wanted stage? =
        ofExcept ((if wanted then session.applyStage stage else .ok session).map of) ∧
      ∀ after, (if wanted then session.applyStage stage else .ok session) = .ok after →
        Indexable after := by
  cases wanted with
  | true => exact applyStage?_eq works indexable
  | false => exact ⟨rfl, fun after same => Except.ok.inj same ▸ indexable⟩

/-- The checks on a schedule for every function pass. -/
theorem runSchedule?_eq (schedule : Schedule) (indexable : Indexable session) :
    (of session).runSchedule? schedule =
        ofExcept ((session.runSchedule schedule).map fun done => (done.1, of done.2)) ∧
      ∀ done, session.runSchedule schedule = .ok done → Indexable done.2 := by
  have works : Works (Checked.runSchedule? schedule) schedule.run := fun graph nodup =>
    ⟨Checked.runSchedule?_eq nodup schedule, fun _ _ =>
      (names_runSchedule nodup schedule).symm ▸ nodup⟩
  rw [runSchedule?, Session.runSchedule]
  by_cases idle : schedule.passes.isEmpty = true
  · rw [if_pos idle, if_pos idle]
    exact ⟨rfl, fun done same => Except.ok.inj same ▸ indexable⟩
  · rw [if_neg idle, if_neg idle]
    dsimp only
    -- The reports at the start leave the flow graphs as they are.
    generalize schedule.passes.map _ = started
    obtain ⟨passes, kept⟩ :=
      @workOnAll?_eq (session.report started) _ _ works session.names 0 indexable
    rw [show ((of session).report started).graphs.keys = session.names from keys_of session]
    refine ⟨bind_map_eq passes fun done _ => rfl, fun done isDone => ?_⟩
    obtain ⟨last, isLast, same⟩ := Attempt.bind_eq_ok.1 isDone
    obtain rfl := Except.ok.inj same
    exact kept last isLast

end IndexedSession

/-! ## Programs -/

section Programs

variable {session : Session}

/-- The checks on the flow graphs of functions pass. -/
theorem insertFunctions?_eq (functions : List Func) (indexable : Indexable session) :
    insertFunctions? functions (.of session) =
        ofExcept ((Optimizer.insertFunctions functions session).map .of) ∧
      ∀ after, Optimizer.insertFunctions functions session = .ok after → Indexable after := by
  induction functions generalizing session with
  | nil => exact ⟨rfl, fun after same => Except.ok.inj same ▸ indexable⟩
  | cons function rest restIH =>
    rw [insertFunctions?, attempt_eq (build?_eq function), ofExcept_ok_bind,
      Optimizer.insertFunctions]
    cases built : FlowGraph.build function with
    | error error =>
      -- A function without a flow graph fails before anything is done to the others.
      refine ⟨bind_map_eq (congrArg ofExcept (failIn_of session function.name error))
        fun after isAfter => (restIH (indexable.failIn isAfter)).1, fun last isLast => ?_⟩
      obtain ⟨after, isAfter, isLast⟩ := Attempt.bind_eq_ok.1 isLast
      exact (restIH (indexable.failIn isAfter)).2 last isLast
    | ok answer =>
      obtain ⟨graph, log⟩ := answer
      have still : Indexable ((session.report log).insert graph) :=
        @Indexable.insert (session.report log) indexable _ (FlowGraph.nodup_names_of_build built)
      obtain ⟨passes, kept⟩ := restIH still
      rw [of_insert] at passes
      exact ⟨passes, kept⟩

/-- The checks on all stages pass. -/
theorem runStages?_eq (indexable : Indexable session) :
    runStages? (.of session) =
      ofExcept ((Optimizer.runStages session).map fun done => (done.1, .of done.2)) := by
  have into : Works (stageWork? construct?) (Session.stageWork Ssa.construct) :=
    works_stageWork (fun _ => construct?_eq) fun _ nodup _ => names_construct nodup
  have outOf : Works (stageWork? destruct?) (Session.stageWork Ssa.destruct) :=
    works_stageWork (fun _ => destruct?_eq) fun _ nodup _ done => (names_destruct nodup done).1
  obtain ⟨converts, kept⟩ := applyIf?_eq session.settings.ssa into indexable
  rw [runStages?, Optimizer.runStages_eq]
  refine bind_map_eq converts fun converted isConverted => ?_
  obtain ⟨runs, still⟩ :=
    IndexedSession.runSchedule?_eq converted.settings.schedule (kept converted isConverted)
  refine bind_map_eq runs fun ran isRan => ?_
  exact bind_map_eq (applyIf?_eq session.settings.ssa outOf (still ran isRan)).1 fun _ _ => rfl

/-- The code of a function is that of its flow graph, with or without an index. -/
theorem finished_of (session : Session) (function : Func) :
    finished (.of session) function = Optimizer.finished session function := by
  rw [finished, Optimizer.finished, IndexedSession.of, SortedMap.get?_mapValues]
  cases session.graphs.get? function.name <;> rfl

/-- The checks on the optimizer pass. -/
theorem optimize?_eq (settings : Settings) (program : Program) :
    optimize? settings program = ofExcept (Optimizer.run settings program) := by
  rw [optimize?, Optimizer.run]
  refine bind_eq rfl fun _ _ => ?_
  -- There is nothing in the session at the start; what is put in has names of its own.
  have empty : Indexable { settings } := fun _ _ inSession => by cases inSession
  obtain ⟨inserts, kept⟩ := insertFunctions?_eq program.functions empty
  show insertFunctions? program.functions (.of { settings }) >>= _ = _
  rw [inserts]
  cases isInserted : Optimizer.insertFunctions program.functions { settings } with
  | error error => rfl
  | ok inserted =>
    show runStages? (.of inserted) >>= _ = _
    rw [runStages?_eq (kept inserted isInserted), Attempt.ok_bind]
    cases Optimizer.runStages inserted with
    | error error => rfl
    | ok done =>
      obtain ⟨rounds, session⟩ := done
      show ofExcept (program.functions.mapM (finished (.of session))) >>= _ = _
      rw [show finished (.of session) = Optimizer.finished session from
        funext (finished_of session)]
      exact bind_eq rfl fun _ _ => rfl

/-- Whatever text is read as a program and whatever the settings are, no check fails on the way
through the optimizer and the register allocation: the answer is that of the work without checks. -/
theorem checks_pass (settings : Settings) (text : String) :
    compile? settings text = ofExcept (compile settings text) := by
  refine bind_eq rfl fun program _ => ?_
  exact bind_eq (optimize?_eq settings program) fun optimized _ =>
    allocate?_eq settings.registers optimized.program

end Programs

end Checked

end Midend
