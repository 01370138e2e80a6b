import Midend.Optimizer
import Midend.Proofs.Session

/-! # Correctness of the optimizer

Every function of a program is brought into single assignment, improved and brought back, or keeps
its body; either way it yields what it yielded, so the optimized program does
(`Optimizer.run_preserves`). -/

namespace Midend

/-! ## Functions -/

/-- A function as it is written: it merges nothing, its branches lead to two labels, and there are no
dots in the names of its variables. -/
structure Func.Plain (function : Func) : Prop where
  /-- Nothing is merged. -/
  unmerged : ∀ instr ∈ function.instrs, instr.isPhi = false
  /-- Branches lead to two labels. -/
  branches : ∀ instr ∈ function.instrs, instr.op? = some .br → instr.labels.Nodup
  /-- There are no dots in the names of parameters. -/
  params : ∀ param ∈ function.params, '.' ∉ param.name.toList
  /-- There are no dots in the names of other variables. -/
  vars : ∀ instr ∈ function.instrs, ∀ var ∈ instr.dest?.toList ++ instr.args, '.' ∉ var.toList

/-- The flow graph of a function without dots is tame. -/
theorem FlowGraph.BuiltFrom.tame {function : Func} {graph : FlowGraph}
    (built : BuiltFrom function graph) (plain : function.Plain) : graph.Tame := by
  refine ⟨fun param member => ?_, fun instr member => ?_⟩
  · rw [paramNames, built.params_eq] at member
    obtain ⟨param, isParam, rfl⟩ := List.mem_map.1 member
    exact .of_no_dot (plain.params param isParam)
  · obtain ⟨block, inGraph, inBlock⟩ := List.mem_flatMap.1 member
    rcases built.mem_instrs block inGraph instr inBlock with inFunction | ⟨target, action⟩ | action
    · have vars := plain.vars instr inFunction
      exact ⟨fun arg isArg => .of_no_dot (vars arg (by simp [isArg])),
        fun dest isDest => .of_no_dot (vars dest (by simp [isDest])),
        plain.branches instr inFunction⟩
    · refine ⟨?_, ?_, ?_⟩ <;> simp [Instr.args, Instr.dest?, Instr.op?, action, Instr.jmp,
        Instr.effect, Action.operands, Action.dest?, Action.op?]
    · refine ⟨?_, ?_, ?_⟩ <;> simp [Instr.args, Instr.dest?, Instr.op?, action, Instr.ret,
        Instr.effect, Action.operands, Action.dest?, Action.op?]

namespace Optimizer

/-! ## Stages -/

/-- The flow graph that a function starts with. -/
def Built (function : Func) (graph : FlowGraph) : Prop :=
  ∃ log, FlowGraph.build function = .ok (graph, log)

/-- The flow graph that passes are run on. -/
def Formed (ssa : Bool) (function : Func) (graph : FlowGraph) : Prop :=
  if ssa then ∃ start, Built function start ∧ Ssa.Constructed function start graph
  else Built function graph

/-- The flow graph that passes leave. -/
def Passed (ssa : Bool) (function : Func) (graph : FlowGraph) : Prop :=
  ∃ middle, Formed ssa function middle ∧ Improved middle graph

/-- The flow graph that is written out. -/
structure Done (function : Func) (graph : FlowGraph) : Prop where
  /-- It is well-formed. -/
  wellFormed : graph.WellFormed
  /-- It has the name of the function. -/
  name_eq : graph.name = function.name
  /-- It yields what the function yields. -/
  yields : function.Plain → ∀ floats calls args answer,
    function.Yields ⟨floats, false⟩ calls args answer →
      graph.Yields ⟨floats, false⟩ calls args answer
  /-- There are keys left for its labels. -/
  few : graph.nextKey + graph.blocks.length ≤ function.maxKey + 32 * function.extent ^ 3

/-- Why a function fails: it is ill-formed, or the passes do not settle. -/
def Rejected (limit : Nat) (function : Func) (error : Error) : Prop :=
  function.check = .error error ∨ error = .nonConvergence "pass scheduler" (max limit 1)

variable {settings : Settings} {program : Program}
  (unmerged : ∀ function ∈ program.functions, ∀ instr ∈ function.instrs, instr.isPhi = false)

/-- Passes can be run on the flow graph that they are run on. -/
theorem Formed.ready {ssa : Bool} {function : Func} {graph : FlowGraph}
    (formed : Formed ssa function graph)
    (noMerge : ∀ instr ∈ function.instrs, instr.isPhi = false) : Ready ssa graph := by
  cases ssa with
  | true =>
    obtain ⟨_, _, constructed⟩ := formed
    exact constructed.ready
  | false =>
    obtain ⟨_, built⟩ := formed
    exact ⟨((FlowGraph.builtFrom_of_build built).of_unmerged noMerge).1, nofun, nofun⟩

/-- The flow graph that passes leave has the name of the function. -/
theorem Passed.name_eq {ssa : Bool} {function : Func} {graph : FlowGraph}
    (passed : Passed ssa function graph) : graph.name = function.name := by
  obtain ⟨middle, formed, improved⟩ := passed
  refine improved.recoded.name_eq.trans ?_
  cases ssa with
  | true =>
    obtain ⟨_, _, constructed⟩ := formed
    exact constructed.name_eq
  | false =>
    obtain ⟨_, built⟩ := formed
    exact (FlowGraph.builtFrom_of_build built).name_eq

/-- The way out of single assignment finishes a function. -/
theorem manages_finish {function : Func} {graph : FlowGraph} (passed : Passed true function graph) :
    Manages (¬function.LeavesKeys) (Ssa.destruct graph) fun result => Done function result.1 := by
  obtain ⟨middle, ⟨start, ⟨log, built⟩, constructed⟩, improved⟩ := passed
  have isBuilt := FlowGraph.builtFrom_of_build built
  have ready := constructed.ready.improved improved
  have inSsa := ready.inSsa rfl
  refine (Ssa.manages_destruct constructed improved).mono id fun result ⟨destructed, few⟩ => ?_
  obtain ⟨name_eq, _, wellFormed, _⟩ := destructed.spec ready.wellFormed inSsa.phi_labels
  refine ⟨wellFormed, ?_, fun plain floats calls args answer yields => ?_, few⟩
  · rw [name_eq, improved.recoded.name_eq, constructed.name_eq]
  · have tame := improved.modest.tame (constructed.tame (isBuilt.tame plain))
    refine destructed.refines (.of_tame ready.wellFormed inSsa tame) not_lasting_numbered
      ⟨floats, false⟩ calls args answer ?_
    refine improved.refines floats calls args answer ?_
    exact constructed.refines ⟨floats, false⟩ calls args answer (isBuilt.yields plain.unmerged yields)

/-- The stages in their order. -/
theorem runStages_eq (session : Session) : runStages session =
    (if session.settings.ssa then session.applyStage Ssa.construct else .ok session) >>= fun formed =>
      formed.runSchedule formed.settings.schedule >>= fun passed =>
        (if session.settings.ssa then passed.2.applyStage Ssa.destruct else .ok passed.2) >>=
          fun done => .ok (passed.1, done) := by
  unfold runStages
  cases session.settings.ssa <;> rfl

include unmerged

/-- Functions are added to a session. -/
theorem manages_insertFunctions {functions : List Func}
    (nodup : (functions.map Func.name).Nodup)
    (members : ∀ function ∈ functions, program.find? function.name = some function)
    {session : Session}
    (follows : session.Follows settings program Built (Rejected settings.roundLimit))
    (unfailed : ∀ function ∈ functions, session.failures.get? function.name = none) :
    Manages (¬program.LeavesKeys) (insertFunctions functions session)
      fun after => after.Follows settings program Built (Rejected settings.roundLimit) := by
  induction functions generalizing session with
  | nil => exact .inl ⟨_, rfl, follows⟩
  | cons function rest restIH =>
    rw [List.map_cons, List.nodup_cons] at nodup
    have found := members function (List.mem_cons_self ..)
    have others := fun (after : Session)
        (held : after.Follows settings program Built (Rejected settings.roundLimit)) =>
      restIH nodup.2 (fun other member => members other (List.mem_cons_of_mem _ member)) held
    have unfailedRest := fun other member => unfailed other (List.mem_cons_of_mem function member)
    rw [insertFunctions]
    split
    · rename_i graph log built
      refine others _ ((follows.report log).insert found (fun _ _ _ => id) ?_ ⟨log, built⟩
        (unfailed function (List.mem_cons_self ..))) unfailedRest
      exact (FlowGraph.builtFrom_of_build built).name_eq
    · rename_i error failed
      refine (follows.failIn found (fun _ _ _ => id) ?_).bind fun after ⟨held, same⟩ =>
        others after held fun other member => ?_
      · rcases FlowGraph.build_eq_error (unmerged function (List.mem_of_find?_eq_some found)) failed
          with refused | ⟨exhausted, many⟩
        · obtain ⟨message, rfl⟩ := Func.complains_check function error refused
          exact .inr ⟨rfl, .inl refused⟩
        · -- Where keys are left for the function, building it does not run out of them.
          refine .inl ⟨exhausted, fun room => ?_⟩
          obtain ⟨square, cube⟩ := function.three_mul_extent_le
          have extent_eq : function.extent = function.instrs.length + function.params.length + 3 :=
            rfl
          rw [Func.LeavesKeys] at room
          omega
      · rw [same _ fun isName => nodup.1 (isName ▸ List.mem_map_of_mem member),
          unfailedRest other member]

/-- Passes take functions on, unless they do not settle. -/
theorem advances_schedule : Session.Advances program (Formed settings.ssa) (Passed settings.ssa)
    (Rejected settings.roundLimit) settings.schedule.run := by
  intro function member graph formed
  have ready := formed.ready (unmerged function member)
  obtain ⟨allowed, unlimited⟩ := settings.schedule_spec
  obtain ⟨improved, settles | fails⟩ := Schedule.run_spec allowed unlimited ready
  · exact .inl ⟨settles, graph, formed, improved⟩
  · exact .inr ⟨_, fails, .inr ⟨rfl, .inr rfl⟩⟩

/-- A function that is not brought into single assignment is done after the passes. -/
theorem done_of_passed {function : Func} (member : function ∈ program.functions) {graph : FlowGraph}
    (passed : Passed false function graph) : Done function graph := by
  obtain ⟨start, ⟨log, built⟩, improved⟩ := passed
  have isBuilt := FlowGraph.builtFrom_of_build built
  have noMerge := unmerged function member
  obtain ⟨square, cube⟩ := function.three_mul_extent_le
  have extent_eq : function.extent = function.instrs.length + function.params.length + 3 := rfl
  refine ⟨improved.recoded.wellFormed (isBuilt.of_unmerged noMerge).1,
    improved.recoded.name_eq.trans isBuilt.name_eq, fun _ floats calls args answer yields =>
      improved.refines floats calls args answer (isBuilt.yields noMerge yields), ?_⟩
  have fewKeys := isBuilt.nextKey_le
  have fewBlocks := isBuilt.length_blocks
  have sameBlocks := congrArg List.length improved.modest.names_eq
  rw [FlowGraph.names, FlowGraph.names, List.length_map, List.length_map] at sameBlocks
  rw [improved.modest.nextKey_eq, sameBlocks]
  omega

/-- The functions of a session are taken through all stages. -/
theorem manages_runStages {session : Session}
    (follows : session.Follows settings program Built (Rejected settings.roundLimit)) :
    Manages (¬program.LeavesKeys) (runStages session)
      fun result => result.2.Follows settings program Done (Rejected settings.roundLimit) := by
  rw [runStages_eq, follows.settings_eq]
  -- Into single assignment, if that is asked for.
  have first : Manages (¬program.LeavesKeys)
      (if settings.ssa then session.applyStage Ssa.construct else .ok session)
      (Session.Follows settings program (Formed settings.ssa) (Rejected settings.roundLimit)) := by
    cases settings.ssa with
    | true =>
      refine Session.manages_applyStage (fun function member graph ⟨log, built⟩ => ?_)
        (fun function graph ⟨_, _, constructed⟩ => constructed.name_eq) follows
      exact (Ssa.manages_construct built (unmerged function member)).mono id
        fun result constructed => ⟨graph, ⟨log, built⟩, constructed⟩
    | false => exact .inl ⟨session, rfl, follows⟩
  refine first.bind fun formed followsFormed => ?_
  -- The passes.
  rw [followsFormed.settings_eq]
  refine (Session.manages_runSchedule (advances_schedule unmerged) ?_ ?_ followsFormed).bind
    fun passed followsPassed => ?_
  · exact fun function member graph formed =>
      ⟨graph, formed, .refl (formed.ready (unmerged function member)).wellFormed⟩
  · exact fun function graph passed => passed.name_eq
  -- Back again.
  have last : Manages (¬program.LeavesKeys)
      (if settings.ssa then passed.2.applyStage Ssa.destruct else .ok passed.2)
      (Session.Follows settings program Done (Rejected settings.roundLimit)) := by
    cases isSsa : settings.ssa with
    | true =>
      rw [isSsa] at followsPassed
      exact Session.manages_applyStage (fun _ _ _ => manages_finish)
        (fun function graph done => done.name_eq) followsPassed
    | false =>
      rw [isSsa] at followsPassed
      exact .inl ⟨passed.2, rfl, followsPassed.mono fun _ function graph _ found =>
        done_of_passed unmerged (List.mem_of_find?_eq_some found)⟩
  exact last.bind fun done followsDone => .inl ⟨_, rfl, followsDone⟩

omit unmerged

/-- What is written out for a function: it has its name and yields what the function yields. -/
structure Output (function output : Func) : Prop where
  /-- It has the name of the function. -/
  name_eq : output.name = function.name
  /-- It yields what the function yields. -/
  refines : function.Plain → ∀ floats, function.Refines ⟨floats, false⟩ output

/-- Functions are written out. -/
theorem manages_finished {session : Session}
    (follows : session.Follows settings program Done (Rejected settings.roundLimit))
    {function : Func} (found : program.find? function.name = some function) :
    Manages (¬program.LeavesKeys) (finished session function) (Output function) := by
  unfold finished
  split
  · rename_i graph inSession
    obtain ⟨owner, isOwner, done⟩ := follows.graphs _ _ inSession
    obtain rfl := Option.some.inj (isOwner.symm.trans found)
    rcases graph.flatten_cases with ⟨output, isOutput⟩ | ⟨failed, exhausted⟩
    · refine .inl ⟨output, isOutput, ?_, fun plain floats calls args answer yields => ?_⟩
      · obtain ⟨instrs, _, isOutput⟩ := Attempt.bind_eq_ok.1 isOutput
        obtain rfl := Except.ok.inj isOutput
        exact done.name_eq
      · rw [FlowGraph.yields_flatten_iff done.wellFormed isOutput]
        exact done.yields plain floats calls args answer yields
    · refine .inr ⟨failed, Program.not_leavesKeys found fun room => ?_⟩
      have few := done.few
      rw [Func.LeavesKeys] at room
      omega
  · exact .inl ⟨function, rfl, rfl, fun _ _ _ _ _ => id⟩

/-- The start of a session. -/
theorem follows_start (settings : Settings) (program : Program) :
    Session.Follows settings program Built (Rejected settings.roundLimit) { settings } := by
  refine ⟨rfl, fun name graph inSession => ?_, fun name error inSession => ?_, fun _ _ => rfl⟩
  · rw [SortedMap.get?_empty] at inSession
    cases inSession
  · rw [SortedMap.get?_empty] at inSession
    cases inSession

/-- All functions of a program are taken through all stages and written out. -/
theorem manages_run (links : program.checkLinkage = .ok ())
    (unmerged : ∀ function ∈ program.functions, ∀ instr ∈ function.instrs, instr.isPhi = false) :
    Manages (¬program.LeavesKeys) (run settings program) fun optimized =>
      List.Forall₂ Output program.functions optimized.program.functions := by
  have nodup := Program.nodup_of_checkLinkage links
  have found := fun function member => @Program.find?_of_mem program nodup function member
  rw [run, links, Attempt.ok_bind]
  refine (manages_insertFunctions unmerged nodup found (follows_start settings program)
    fun _ _ => rfl).bind fun started followsStarted => ?_
  refine (manages_runStages unmerged followsStarted).bind fun result followsDone => ?_
  refine (Manages.mapM fun function member =>
    manages_finished followsDone (found function member)).bind fun outputs replaced => ?_
  exact .inl ⟨_, rfl, replaced⟩

/-! ## Results -/

/-- What a program yields, it yields after it was optimized, however that was done. -/
theorem run_preserves (settings : Settings) {program : Program}
    (links : program.checkLinkage = .ok ())
    (plain : ∀ function ∈ program.functions, function.Plain) :
    Manages (¬program.LeavesKeys) (run settings program) fun optimized =>
      ∀ floats name args answer, program.Yields ⟨floats, false⟩ name args answer →
        optimized.program.Yields ⟨floats, true⟩ name args answer := by
  refine (manages_run links fun function member => (plain function member).unmerged).mono id
    fun optimized replaced floats name args answer yields => ?_
  refine .of_refusing (.of_refines (fun name function found => ?_) yields)
  obtain ⟨output, isOutput, held⟩ := Program.exists_find?_of_forall₂
    (replaced.imp fun _ _ output => ⟨output.name_eq, output⟩) found
  exact ⟨output, isOutput, held.refines (plain function (List.mem_of_find?_eq_some found)) floats⟩

/-- The function that counts still prints the first number that is not below the bound. -/
theorem run_preserves_countUp : ∃ optimized, run {} ⟨[Ssa.countUp]⟩ = .ok optimized ∧
    optimized.program.Yields ⟨Machine.withoutFloats.floats, true⟩ "count" [.int 3]
      ⟨["3"], none⟩ := by
  obtain ⟨optimized, done, preserves⟩ := (@run_preserves {} ⟨[Ssa.countUp]⟩ rfl
    (by simpa using ⟨by decide, by decide, by decide, by decide⟩)).exists_answer (not_not.2 (by decide))
  exact ⟨optimized, done, preserves _ _ _ _ ⟨30, rfl⟩⟩

/-- A program that yields an answer is not optimized if it leaves no keys. -/
theorem not_run_preserves : ∃ settings program, program.checkLinkage = .ok () ∧
    (∀ function ∈ program.functions, function.Plain) ∧
    program.Yields .withoutFloats "last" [.bool true] ⟨[], none⟩ ∧
      ¬∃ optimized, run settings program = .ok optimized := by
  refine ⟨{}, ⟨[Ssa.lastKeyWrite]⟩, rfl, ?_, ⟨10, rfl⟩, ?_⟩
  · simpa using ⟨by decide, by decide, by decide, by decide⟩
  · rintro ⟨optimized, done⟩
    cases Eq.trans done.symm rfl

end Optimizer

end Midend
