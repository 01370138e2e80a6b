import Midend.Proofs.Ssa.RoundTrip
import Midend.Session

/-! # Work on the functions of a program

A session keeps the flow graphs of functions and the errors of those that failed
(`Session.Follows`). Work on all functions takes each flow graph from one stage to the next, or its
function out of the session; only exhausted keys end it (`Session.manages_workOnAll`). -/

namespace Midend

/-- There are keys left for what single assignment adds to the functions of a program. -/
def Program.LeavesKeys (program : Program) : Prop :=
  ∀ function ∈ program.functions, function.LeavesKeys

instance (program : Program) : Decidable program.LeavesKeys :=
  inferInstanceAs (Decidable (∀ _ ∈ _, _))

/-- A function that leaves no keys is one of a program that leaves none. -/
theorem Program.not_leavesKeys {program : Program} {name : String} {function : Func}
    (found : program.find? name = some function) (full : ¬function.LeavesKeys) :
    ¬program.LeavesKeys := fun room => full (room function (List.mem_of_find?_eq_some found))

/-- The function of a name has that name. -/
theorem Program.name_of_find? {program : Program} {name : String} {function : Func}
    (found : program.find? name = some function) : function.name = name := by
  simpa using List.find?_some found

/-- Functions that fit together have names of their own. -/
theorem Program.nodup_of_checkLinkage {program : Program} (links : program.checkLinkage = .ok ()) :
    (program.functions.map Func.name).Nodup := by
  unfold checkLinkage at links
  dsimp only at links
  split at links
  · cases links
  · rename_i unrepeated
    exact firstRepeated?_eq_none unrepeated

/-- A function that has a name of its own is found by it. -/
theorem Program.find?_of_mem {program : Program} (nodup : (program.functions.map Func.name).Nodup)
    {function : Func} (member : function ∈ program.functions) :
    program.find? function.name = some function := by
  cases found : program.find? function.name with
  | none => exact absurd (List.find?_eq_none.1 found function member) (by simp)
  | some other =>
    rw [List.inj_on_of_nodup_map nodup (List.mem_of_find?_eq_some found) member
      (name_of_find? found)]

/-- When every function of a program is replaced by one of its name, what is found is what the
function that was found is replaced by. -/
theorem Program.exists_find?_of_forall₂ {program other : Program} {good : Func → Func → Prop}
    (replaced : List.Forall₂ (fun function output => output.name = function.name ∧
      good function output) program.functions other.functions)
    {name : String} {function : Func} (found : program.find? name = some function) :
    ∃ output, other.find? name = some output ∧ good function output := by
  obtain ⟨functions⟩ := program
  obtain ⟨outputs⟩ := other
  rw [find?] at found ⊢
  dsimp only at replaced found ⊢
  induction replaced with
  | nil => cases found
  | @cons first output rest outputs both _ restIH =>
    rw [List.find?_cons] at found ⊢
    rw [both.1]
    cases isName : first.name == name with
    | true =>
      rw [isName] at found
      exact ⟨output, rfl, Option.some.inj found ▸ both.2⟩
    | false =>
      rw [isName] at found
      exact restIH found

namespace Session

variable {settings : Settings} {program : Program} {good better : Func → FlowGraph → Prop}
  {bad : Func → Error → Prop} {session : Session}

/-- A session with flow graphs of functions of a program, and errors of others. -/
structure Follows (settings : Settings) (program : Program) (good : Func → FlowGraph → Prop)
    (bad : Func → Error → Prop) (session : Session) : Prop where
  /-- The settings stay. -/
  settings_eq : session.settings = settings
  /-- Flow graphs are those of functions. -/
  graphs : ∀ name graph, session.graphs.get? name = some graph →
    ∃ function, program.find? name = some function ∧ good function graph
  /-- Errors are those of functions. -/
  failures : ∀ name error, session.failures.get? name = some error →
    ∃ function cause, program.find? name = some function ∧ bad function cause ∧
      error = cause.inFunction name
  /-- A function that failed has no flow graph. -/
  disjoint : ∀ name, (session.graphs.get? name).isSome → session.failures.get? name = none

namespace Follows

/-- Reports change nothing else. -/
theorem report (follows : session.Follows settings program good bad) (log : Log) :
    (session.report log).Follows settings program good bad :=
  ⟨follows.settings_eq, follows.graphs, follows.failures, follows.disjoint⟩

/-- Flow graphs are as good as is asked for. -/
theorem mono (follows : session.Follows settings program good bad)
    (implies : ∀ name function graph, session.graphs.get? name = some graph →
      program.find? name = some function → good function graph → better function graph) :
    session.Follows settings program better bad := by
  refine ⟨follows.settings_eq, fun name graph inSession => ?_, follows.failures, follows.disjoint⟩
  obtain ⟨function, found, isGood⟩ := follows.graphs name graph inSession
  exact ⟨function, found, implies name function graph inSession found isGood⟩

variable {name : String} {function : Func} (follows : session.Follows settings program good bad)
  (found : program.find? name = some function)
  (implies : ∀ other graph, other.name ≠ name → good other graph → better other graph)

include follows found implies

/-- The flow graph of a function is replaced. -/
theorem insert {graph : FlowGraph} (isName : graph.name = name) (isBetter : better function graph)
    (unfailed : session.failures.get? name = none) :
    (session.insert graph).Follows settings program better bad := by
  refine ⟨follows.settings_eq, fun other after inSession => ?_, follows.failures,
    fun other inSession => ?_⟩ <;> rw [Session.insert, SortedMap.get?_insert_eq, isName] at inSession
    <;> split at inSession
  · rename_i same
    obtain rfl := Option.some.inj inSession
    exact ⟨function, same ▸ found, isBetter⟩
  · rename_i apart
    obtain ⟨owner, isOwner, isGood⟩ := follows.graphs other after inSession
    exact ⟨owner, isOwner, implies owner after (Program.name_of_find? isOwner ▸ apart) isGood⟩
  · rename_i same
    exact same ▸ unfailed
  · exact follows.disjoint other inSession

/-- A function fails, unless that ends the work. -/
theorem failIn {error : Error} (reason : (error = .keysExhausted ∧ ¬function.LeavesKeys) ∨
      (error.isFatal = false ∧ bad function error)) :
    Manages (¬program.LeavesKeys) (session.failIn name error) fun after =>
      after.Follows settings program better bad ∧
        ∀ other, other ≠ name → after.failures.get? other = session.failures.get? other := by
  rcases reason with ⟨rfl, full⟩ | ⟨goesOn, isBad⟩
  · exact .inr ⟨rfl, Program.not_leavesKeys found full⟩
  refine .inl ⟨session.fail name (error.inFunction name), by rw [Session.failIn, goesOn]; rfl,
    ⟨follows.settings_eq, fun other graph inSession => ?_, fun other cause inSession => ?_,
      fun other inSession => ?_⟩, fun other apart => ?_⟩
  · rw [Session.fail, SortedMap.get?_erase_eq] at inSession
    split at inSession
    · cases inSession
    · rename_i apart
      obtain ⟨owner, isOwner, isGood⟩ := follows.graphs other graph inSession
      exact ⟨owner, isOwner, implies owner graph (Program.name_of_find? isOwner ▸ apart) isGood⟩
  · rw [Session.fail, SortedMap.get?_insert_eq] at inSession
    split at inSession
    · rename_i same
      obtain rfl := Option.some.inj inSession
      exact ⟨function, error, same ▸ found, isBad, by rw [same]⟩
    · exact follows.failures other cause inSession
  · rw [Session.fail, SortedMap.get?_erase_eq] at inSession
    split at inSession
    · cases inSession
    · rename_i apart
      rw [Session.fail, SortedMap.get?_insert_eq, if_neg apart]
      exact follows.disjoint other inSession
  · rw [Session.fail, SortedMap.get?_insert_eq, if_neg apart]

end Follows

/-- Work that takes a flow graph of a function from one stage to the next, or fails for a reason. -/
def Advances (program : Program) (good better : Func → FlowGraph → Prop) (bad : Func → Error → Prop)
    (work : FlowGraph → Outcome Nat) : Prop :=
  ∀ function ∈ program.functions, ∀ graph, good function graph →
    ((∃ answer, (work graph).result = .ok answer) ∧ better function (work graph).graph) ∨
    ∃ error, (work graph).result = .error error ∧
      ((error = .keysExhausted ∧ ¬function.LeavesKeys) ∨
        (error.isFatal = false ∧ bad function error))

/-- The flow graph of a function that is still to be worked on, or of one that was. -/
def Partway (good better : Func → FlowGraph → Prop) (todo : List String) (function : Func)
    (graph : FlowGraph) : Prop :=
  if function.name ∈ todo then good function graph else better function graph

section Work

variable {work : FlowGraph → Outcome Nat} (advances : Advances program good better bad work)
  (named : ∀ function graph, better function graph → graph.name = function.name)

include advances named

/-- Work on one function. -/
theorem manages_workOn {name : String} {rest : List String} (absent : name ∉ rest) (floor : Nat)
    (follows : session.Follows settings program (Partway good better (name :: rest)) bad) :
    Manages (¬program.LeavesKeys) (session.workOn work floor name)
      fun result => result.2.Follows settings program (Partway good better rest) bad := by
  have implies : ∀ other graph, other.name ≠ name → Partway good better (name :: rest) other graph →
      Partway good better rest other graph := by
    intro other graph apart held
    simpa [Partway, apart] using held
  unfold workOn
  split
  · rename_i missing
    refine .inl ⟨_, rfl, follows.mono fun other function graph inSession found => ?_⟩
    refine implies function graph fun isName => ?_
    rw [← Program.name_of_find? found, isName, missing] at inSession
    cases inSession
  · rename_i graph inSession
    obtain ⟨function, found, isGood⟩ := follows.graphs name graph inSession
    have isName := Program.name_of_find? found
    rw [Partway, isName, if_pos (List.mem_cons_self ..)] at isGood
    dsimp only
    rcases advances function (List.mem_of_find?_eq_some found) graph isGood with
      ⟨⟨answer, isAnswer⟩, isBetter⟩ | ⟨error, isError, reason⟩
    · rw [isAnswer]
      refine .inl ⟨_, rfl, (follows.report _).insert found implies
        ((named _ _ isBetter).trans isName) ?_ (follows.disjoint name (by rw [inSession]; rfl))⟩
      rwa [Partway, isName, if_neg absent]
    · rw [isError]
      rcases (follows.report (work graph).log).failIn found implies reason with
        ⟨after, isAfter, holds, _⟩ | ⟨failed, full⟩
      · exact .inl ⟨_, by dsimp only; rw [isAfter]; rfl, holds⟩
      · exact .inr ⟨by dsimp only; rw [failed]; rfl, full⟩

/-- Work on several functions. -/
theorem manages_workOnAll {todo : List String} (nodup : todo.Nodup) (floor : Nat)
    (follows : session.Follows settings program (Partway good better todo) bad) :
    Manages (¬program.LeavesKeys) (workOnAll work todo floor session)
      fun result => result.2.Follows settings program better bad := by
  induction todo generalizing session floor with
  | nil =>
    refine .inl ⟨_, rfl, follows.mono fun _ function graph _ _ held => ?_⟩
    rwa [Partway, if_neg List.not_mem_nil] at held
  | cons name rest restIH =>
    rw [List.nodup_cons] at nodup
    rw [workOnAll]
    exact (manages_workOn advances named nodup.1 floor follows).bind fun result held =>
      restIH nodup.2 result.1 held

/-- Work on all functions of a session. -/
theorem manages_work (follows : session.Follows settings program good bad) :
    Manages (¬program.LeavesKeys) (workOnAll work session.names 0 session)
      fun result => result.2.Follows settings program better bad := by
  refine manages_workOnAll advances named session.graphs.nodup_keys 0
    (follows.mono fun name function graph inSession found isGood => ?_)
  rw [Partway, if_pos]
  · exact isGood
  · rw [Program.name_of_find? found, SortedMap.mem_keys]
    exact ⟨graph, inSession⟩

end Work

/-- A stage takes the functions of a session on. -/
theorem manages_applyStage {stage : FlowGraph → Except Error (FlowGraph × Log)}
    (manages : ∀ function ∈ program.functions, ∀ graph, good function graph →
      Manages (¬function.LeavesKeys) (stage graph) fun result => better function result.1)
    (named : ∀ function graph, better function graph → graph.name = function.name)
    (follows : session.Follows settings program good bad) :
    Manages (¬program.LeavesKeys) (session.applyStage stage)
      fun after => after.Follows settings program better bad := by
  have advances : Advances program good better bad (stageWork stage) := by
    intro function member graph isGood
    unfold stageWork
    rcases manages function member graph isGood with ⟨⟨after, log⟩, done, isBetter⟩ | ⟨failed, full⟩
    · rw [done]
      exact .inl ⟨⟨0, rfl⟩, isBetter⟩
    · rw [failed]
      exact .inr ⟨_, rfl, .inl ⟨rfl, full⟩⟩
  rcases manages_work advances named follows with ⟨result, done, held⟩ | ⟨failed, full⟩
  · exact .inl ⟨result.2, by rw [applyStage, done]; rfl, held⟩
  · exact .inr ⟨by rw [applyStage, failed]; rfl, full⟩

/-- A schedule takes the functions of a session on; a function for which it does not settle fails. -/
theorem manages_runSchedule {schedule : Schedule}
    (advances : Advances program good better bad schedule.run)
    (implies : ∀ function ∈ program.functions, ∀ graph, good function graph → better function graph)
    (named : ∀ function graph, better function graph → graph.name = function.name)
    (follows : session.Follows settings program good bad) :
    Manages (¬program.LeavesKeys) (session.runSchedule schedule)
      fun result => result.2.Follows settings program better bad := by
  unfold runSchedule
  split
  · exact .inl ⟨_, rfl, follows.mono fun _ function graph _ found =>
      implies function (List.mem_of_find?_eq_some found) graph⟩
  · exact (manages_work advances named (follows.report _)).bind fun result held =>
      .inl ⟨_, rfl, held.report _⟩

end Session

end Midend
