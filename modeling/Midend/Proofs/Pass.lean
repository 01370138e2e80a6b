import Midend.Proofs.DeadCode
import Midend.Proofs.Values.Global
import Midend.Proofs.Values.Names
import Midend.Settings

/-! # Passes

What passes keep is stated once for all of them (`Improved`), so it holds of any sequence of passes,
of rounds, and of a whole schedule (`Schedule.run_spec`). A schedule whose passes have no limits of
their own fails only when it does not settle within its rounds. -/

namespace Midend

/-- What passes keep: names and edges of blocks, single assignment, keys, the names of variables, and
what a flow graph does. -/
structure Improved (graph after : FlowGraph) : Prop where
  /-- Names and edges stay. -/
  recoded : graph.Recoded after
  /-- Single assignment stays. -/
  inSsa : Ssa.InSsa graph → Ssa.InSsa after
  /-- No key is taken, no instruction added, and no name of a temporary. -/
  modest : graph.Modest after
  /-- The flow graph does what it did. -/
  refines : ∀ floats, graph.Refines ⟨floats, false⟩ after

namespace Improved

variable {graph middle after : FlowGraph}

/-- Nothing is done. -/
theorem refl (wellFormed : graph.WellFormed) : Improved graph graph :=
  ⟨.refl wellFormed, id, .refl graph, fun floats => .refl ⟨floats, false⟩ graph⟩

/-- One pass after another. -/
theorem trans (first : Improved graph middle) (second : Improved middle after) :
    Improved graph after :=
  ⟨first.recoded.trans second.recoded, fun inSsa => second.inSsa (first.inSsa inSsa),
    first.modest.trans second.modest, fun floats => (first.refines floats).trans (second.refines floats)⟩

/-- A flow graph without its dead code. -/
theorem of_cleans (cleans : DeadCode.Cleans graph after) : Improved graph after :=
  ⟨cleans.recoded, cleans.inSsa,
    ⟨cleans.recoded.names_eq, cleans.recoded.params_eq, cleans.nextKey_eq, cleans.sublist.length_le,
      fun tame => tame.of_instrs cleans.recoded.params_eq fun instr member =>
        tame.instrs instr (cleans.sublist.subset member)⟩,
    fun floats => cleans.refines ⟨floats, false⟩⟩

end Improved

/-- A flow graph that passes can be run on: it is in single assignment without unreachable blocks, if
that is asked for. -/
structure Ready (ssa : Bool) (graph : FlowGraph) : Prop where
  /-- It is well-formed. -/
  wellFormed : graph.WellFormed
  /-- It is in single assignment. -/
  inSsa : ssa = true → Ssa.InSsa graph
  /-- All blocks are reachable. -/
  reachable : ssa = true → ∀ block ∈ graph.blocks, graph.Reachable block.name

/-- A flow graph stays ready. -/
theorem Ready.improved {ssa : Bool} {graph after : FlowGraph} (ready : Ready ssa graph)
    (improved : Improved graph after) : Ready ssa after :=
  ⟨improved.recoded.wellFormed ready.wellFormed, fun isSsa => improved.inSsa (ready.inSsa isSsa),
    fun isSsa => improved.recoded.reachable_of_mem (ready.reachable isSsa)⟩

namespace Pass

/-- Whether a pass can be run on code that is in single assignment or not. -/
def Allowed (ssa : Bool) (pass : Pass) : Prop := pass.requiresSsa = true → ssa = true

/-- A pass improves a flow graph that it can be run on; it fails only by its own limit. -/
theorem run_spec {ssa : Bool} {graph : FlowGraph} (ready : Ready ssa graph) {pass : Pass}
    (allowed : pass.Allowed ssa) : Improved graph (pass.run graph).graph ∧
      ((∀ limit, pass ≠ .deadCode (some limit)) → ∃ changed, (pass.run graph).result = .ok changed) := by
  have wellFormed := ready.wellFormed
  cases pass with
  | localNumbering =>
    exact ⟨⟨LocalNumbering.recoded_run wellFormed, LocalNumbering.inSsa_run wellFormed,
      LocalNumbering.modest_run graph, LocalNumbering.refines_run wellFormed⟩, fun _ => ⟨_, rfl⟩⟩
  | globalNumbering =>
    have isSsa := allowed rfl
    obtain ⟨after, log, ran, recoded, inSsa, refines⟩ :=
      GlobalNumbering.run_spec wellFormed (ready.inSsa isSsa) (ready.reachable isSsa)
    rw [run, ran]
    exact ⟨⟨recoded, fun _ => inSsa, GlobalNumbering.modest_run wellFormed.nodup_names ran, refines⟩,
      fun _ => ⟨_, rfl⟩⟩
  | deadCode limit =>
    refine ⟨.of_cleans (DeadCode.run_spec wellFormed limit), fun unlimited => ?_⟩
    cases limit with
    | some limit => exact absurd rfl (unlimited limit)
    | none => exact ⟨_, by rw [run]; dsimp only; rw [DeadCode.run_result]; rfl⟩

/-- The flow graph after passes, each of which is run on what the one before left. -/
def runAll (passes : List Pass) (graph : FlowGraph) : FlowGraph :=
  passes.foldl (fun graph pass => (pass.run graph).graph) graph

/-- Passes improve a flow graph that they can be run on. -/
theorem improved_runAll {ssa : Bool} {passes : List Pass} {graph : FlowGraph}
    (ready : Ready ssa graph) (allowed : ∀ pass ∈ passes, pass.Allowed ssa) :
    Improved graph (runAll passes graph) := by
  induction passes generalizing graph with
  | nil => exact .refl ready.wellFormed
  | cons pass rest restIH =>
    have first := (run_spec ready (allowed pass (List.mem_cons_self ..))).1
    exact first.trans (restIH (ready.improved first) fun other member =>
      allowed other (List.mem_cons_of_mem _ member))

end Pass

namespace Schedule

variable {ssa : Bool} {passes : List Pass}

/-- A round of passes without limits improves a flow graph. -/
theorem runOnce_spec (allowed : ∀ pass ∈ passes, pass.Allowed ssa)
    (unlimited : ∀ limit, Pass.deadCode (some limit) ∉ passes) {graph : FlowGraph}
    (ready : Ready ssa graph) : Improved graph (runOnce passes graph).graph ∧
      ∃ changed, (runOnce passes graph).result = .ok changed := by
  induction passes generalizing graph with
  | nil => exact ⟨.refl ready.wellFormed, _, rfl⟩
  | cons pass rest restIH =>
    obtain ⟨first, goesOn⟩ := Pass.run_spec ready (allowed pass (List.mem_cons_self ..))
    obtain ⟨changed, isChanged⟩ := goesOn fun limit same =>
      unlimited limit (same ▸ List.mem_cons_self ..)
    obtain ⟨others, more, isMore⟩ := restIH
      (fun other member => allowed other (List.mem_cons_of_mem _ member))
      (fun limit member => unlimited limit (List.mem_cons_of_mem _ member)) (ready.improved first)
    rw [runOnce]
    simp only [isChanged, isMore]
    exact ⟨first.trans others, _, rfl⟩

/-- Rounds of passes without limits improve a flow graph. -/
theorem runRounds_spec (allowed : ∀ pass ∈ passes, pass.Allowed ssa)
    (unlimited : ∀ limit, Pass.deadCode (some limit) ∉ passes) (budget round : Nat)
    {graph : FlowGraph} (ready : Ready ssa graph) :
    Improved graph (runRounds passes budget round graph).graph ∧
      ∃ rounds, (runRounds passes budget round graph).result = .ok rounds := by
  induction budget generalizing graph round with
  | zero => exact ⟨.refl ready.wellFormed, _, rfl⟩
  | succ budget budgetIH =>
    obtain ⟨first, changed, isChanged⟩ := runOnce_spec allowed unlimited ready
    rw [runRounds]
    simp only [isChanged]
    cases changed with
    | false => exact ⟨first, _, rfl⟩
    | true =>
      obtain ⟨others, rounds, isRounds⟩ := budgetIH (round + 1) (ready.improved first)
      exact ⟨first.trans others, rounds, isRounds⟩

/-- A schedule of passes without limits improves a flow graph; it fails only by not settling. -/
theorem run_spec {schedule : Schedule} (allowed : ∀ pass ∈ schedule.passes, pass.Allowed ssa)
    (unlimited : ∀ limit, Pass.deadCode (some limit) ∉ schedule.passes) {graph : FlowGraph}
    (ready : Ready ssa graph) : Improved graph (schedule.run graph).graph ∧
      ((∃ rounds, (schedule.run graph).result = .ok rounds) ∨
        (schedule.run graph).result =
          .error (.nonConvergence "pass scheduler" (max schedule.limit 1))) := by
  obtain ⟨improved, rounds, isRounds⟩ :=
    runRounds_spec allowed unlimited (max schedule.limit 1) 1 ready
  rw [run]
  simp only [isRounds]
  cases rounds with
  | none => exact ⟨improved, .inr rfl⟩
  | some rounds => exact ⟨improved, .inl ⟨rounds, rfl⟩⟩

end Schedule

/-- The passes of settings can be run, and have no limits. -/
theorem Settings.schedule_spec (settings : Settings) :
    (∀ pass ∈ settings.schedule.passes, pass.Allowed settings.ssa) ∧
      ∀ limit, Pass.deadCode (some limit) ∉ settings.schedule.passes := by
  obtain ⟨ssa, lvn, gvn, dce, _, _, _, _⟩ := settings
  cases ssa <;> cases lvn <;> cases gvn <;> cases dce <;>
    simp [Settings.schedule, Pass.Allowed, Pass.requiresSsa]

end Midend
