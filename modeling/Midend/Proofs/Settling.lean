import Mathlib.Data.Prod.Lex
import Mathlib.Logic.Function.Iterate
import Midend.Proofs.Optimizer
import Midend.Proofs.Values.Runs

/-! # Schedules settle

Every pass that changes something makes the code of a flow graph lighter, or lets it read variables of
lower rank; code that is not in single assignment is left alone by local numbering after two runs
(`Pass.run_cases`). So passes that are repeated often enough settle on code that none of them changes,
unless a limit on the rounds of dead code elimination is in the way
(`Schedule.run_settles_on_fixpoint`). -/

namespace Midend

/-- Part of some code, with one less for every instruction left out. -/
theorem weigh_le_of_sublist {kept instrs : List Instr} (sublist : kept.Sublist instrs) :
    weigh kept + instrs.length ≤ weigh instrs + kept.length := by
  induction sublist with
  | slnil => exact Nat.le_refl _
  | cons instr _ restIH =>
    have positive := instr.weight_pos
    rw [weigh_cons, List.length_cons]
    omega
  | cons_cons instr _ restIH =>
    rw [weigh_cons, weigh_cons, List.length_cons, List.length_cons]
    omega

namespace DeadCode

/-- A round, and those after it unless it dropped nothing. -/
theorem rounds_succ (budget : Nat) (graph : FlowGraph) :
    rounds (budget + 1) graph = if (round graph).2.isEmpty then (graph, [], true)
      else ((rounds budget (round graph).1).1,
        (round graph).2 ++ (rounds budget (round graph).1).2.1,
        (rounds budget (round graph).1).2.2) := rfl

/-- Rounds report as many instructions as they drop. -/
theorem count_rounds (budget : Nat) (graph : FlowGraph) :
    (rounds budget graph).1.instructionCount + (rounds budget graph).2.1.length =
      graph.instructionCount := by
  induction budget generalizing graph with
  | zero => rfl
  | succ budget budgetIH =>
    rw [rounds_succ]
    split
    · rfl
    · have first := count_round graph
      have others := budgetIH (round graph).1
      dsimp only
      rw [List.length_append]
      omega

/-- Rounds that report nothing change nothing, and settle if there is one. -/
theorem rounds_of_quiet {budget : Nat} {graph : FlowGraph} (quiet : (rounds budget graph).2.1 = []) :
    (rounds budget graph).1 = graph ∧ (0 < budget → (rounds budget graph).2.2 = true) := by
  cases budget with
  | zero => exact ⟨rfl, fun impossible => absurd impossible (Nat.lt_irrefl 0)⟩
  | succ budget =>
    rw [rounds_succ] at quiet ⊢
    split at quiet
    · rename_i isQuiet
      rw [if_pos isQuiet]
      exact ⟨rfl, fun _ => rfl⟩
    · rename_i isReported
      rw [(List.append_eq_nil_iff.1 quiet).1] at isReported
      exact absurd rfl isReported

/-- Dead code elimination does nothing, makes code lighter, or gives up because of a limit that is not
above the number of instructions. -/
theorem run_cases {graph : FlowGraph} (wellFormed : graph.WellFormed) (limit : Option Nat) :
    (run graph limit = (graph, [], .ok ())) ∨
    ((run graph limit).2.2 = .ok () ∧ (run graph limit).2.1 ≠ [] ∧
      weigh (run graph limit).1.instrs < weigh graph.instrs) ∨
    ∃ cap, limit = some cap ∧ cap ≤ graph.instructionCount ∧
      (run graph limit).2.2 = .error (.nonConvergence "dead code elimination" (max cap 1)) := by
  have counted := count_rounds (roundLimit graph limit) graph
  have sublist := (run_spec wellFormed limit).sublist
  unfold run at sublist ⊢
  dsimp only at sublist ⊢
  have lighter := weigh_le_of_sublist sublist
  -- Without a report nothing changed; every report stands for an instruction that went.
  by_cases quiet : (rounds (roundLimit graph limit) graph).2.1 = []
  · obtain ⟨same, settles⟩ := rounds_of_quiet quiet
    have positive : 0 < roundLimit graph limit := by
      cases limit with
      | none => exact Nat.succ_pos _
      | some cap => exact Nat.lt_of_lt_of_le Nat.zero_lt_one (Nat.le_max_right ..)
    rw [same, quiet, settles positive]
    exact .inl rfl
  · have dropped := List.length_pos_iff.2 quiet
    cases settled : (rounds (roundLimit graph limit) graph).2.2 with
    | true =>
      refine .inr (.inl ⟨rfl, quiet, ?_⟩)
      unfold FlowGraph.instructionCount at counted
      omega
    | false =>
      cases limit with
      | none =>
        rw [roundLimit, settled_of_lt (Nat.lt_succ_self _)] at settled
        cases settled
      | some cap =>
        refine .inr (.inr ⟨cap, rfl, ?_, rfl⟩)
        by_contra above
        have enough : graph.instructionCount < roundLimit graph (some cap) :=
          Nat.lt_of_lt_of_le (Nat.lt_of_not_le above) (Nat.le_max_left ..)
        rw [settled_of_lt enough] at settled
        cases settled

end DeadCode

namespace LocalNumbering

/-- How many runs of local numbering it takes at most until one has nothing to do, if none makes code
lighter: the first may rename, the next only replaces arguments. -/
def unease (graph : FlowGraph) : Nat :=
  if graph.blocks.all fun block => decide (WritesOnce block) then
    if (run graph).2 = [] then 0 else 1
  else 2

end LocalNumbering

/-! ## Passes -/

/-- What passes bring down: the weight of the code, and then the ranks of what it reads, in single
assignment, or what local numbering has left to do. -/
noncomputable def burden (ssa : Bool) (graph : FlowGraph) : ℕ ×ₗ ℕ :=
  toLex (weigh graph.instrs,
    if ssa then climb graph.rank graph.instrs else LocalNumbering.unease graph)

/-- Two pairs of numbers compared by the first and then by the second. -/
theorem burden_lt {ssa : Bool} {graph after : FlowGraph} :
    burden ssa after < burden ssa graph ↔ weigh after.instrs < weigh graph.instrs ∨
      (weigh after.instrs = weigh graph.instrs ∧
        (if ssa then climb after.rank after.instrs else LocalNumbering.unease after) <
          if ssa then climb graph.rank graph.instrs else LocalNumbering.unease graph) :=
  Prod.Lex.toLex_lt_toLex

/-- A descent that changes something takes some of the burden away. -/
theorem DescendsAll.burden_lt {graph after : FlowGraph} {log : Log}
    (descends : DescendsAll graph.rank graph.blocks after.blocks log)
    (recoded : graph.Recoded after) (isReported : log ≠ []) : burden true after < burden true graph := by
  have lighter : weigh after.instrs ≤ weigh graph.instrs := descends.weight_le
  rw [Midend.burden_lt, if_pos rfl, if_pos rfl]
  rcases Nat.lt_or_eq_of_le lighter with less | same
  · exact .inl less
  · refine .inr ⟨same, ?_⟩
    -- Where code is as heavy the ranks of variables are the same.
    rw [FlowGraph.rank_eq recoded (descends.outline_eq same)]
    refine Nat.lt_of_le_of_ne (descends.climb_le same) fun sameClimb => ?_
    exact isReported (descends.reported same sameClimb)

/-- Local numbering that changes something takes some of the burden away, in single assignment or
not. -/
theorem LocalNumbering.burden_lt {ssa : Bool} {graph : FlowGraph} (ready : Ready ssa graph)
    (isReported : (run graph).2 ≠ []) : burden ssa (run graph).1 < burden ssa graph := by
  have wellFormed := ready.wellFormed
  cases ssa with
  | true =>
    have descends := descendsAll_run wellFormed (ready.inSsa rfl)
    exact descends.burden_lt (recoded_run wellFormed) isReported
  | false =>
    rw [Midend.burden_lt]
    rcases Nat.lt_or_eq_of_le (weigh_run wellFormed).1 with less | same
    · exact .inl less
    · refine .inr ⟨same, ?_⟩
      have onceThen : ((run graph).1.blocks.all fun block => decide (WritesOnce block)) = true :=
        List.all_eq_true.2 fun block member => decide_eq_true (writesOnce_run wellFormed block member)
      rw [if_neg Bool.false_ne_true, if_neg Bool.false_ne_true, unease, if_pos onceThen]
      by_cases once : (graph.blocks.all fun block => decide (WritesOnce block)) = true
      · have again := run_again wellFormed
          (fun block member => of_decide_eq_true (List.all_eq_true.1 once block member)) same
        rw [if_pos again, unease, if_pos once, if_neg isReported]
        exact Nat.zero_lt_one
      · rw [unease, if_neg once]
        split <;> decide

namespace Pass

/-- A pass changes nothing and says so, or takes some of the burden of a flow graph away, or is dead
code elimination that gives up because of its limit. -/
theorem run_cases {ssa : Bool} {graph : FlowGraph} (ready : Ready ssa graph) {pass : Pass}
    (allowed : pass.Allowed ssa) :
    pass.run graph = ⟨graph, [], .ok false⟩ ∨
    ((pass.run graph).result = .ok true ∧ burden ssa (pass.run graph).graph < burden ssa graph) ∨
    ∃ cap, pass = .deadCode (some cap) ∧ cap ≤ graph.instructionCount ∧ (pass.run graph).result =
      .error (.nonConvergence "dead code elimination" (max cap 1)) := by
  have wellFormed := ready.wellFormed
  cases pass with
  | localNumbering =>
    rw [run]
    dsimp only
    by_cases quiet : (LocalNumbering.run graph).2 = []
    · left
      rw [quiet, (LocalNumbering.weigh_run wellFormed).2 quiet]
      rfl
    · exact .inr (.inl ⟨by simp [quiet], LocalNumbering.burden_lt ready quiet⟩)
  | globalNumbering =>
    have isSsa : ssa = true := allowed rfl
    subst isSsa
    have inSsa := ready.inSsa rfl
    -- The pass is known in two ways: by the weight it takes away and by what it recodes.
    obtain ⟨after, log, ran, sameFunction, descends⟩ :=
      GlobalNumbering.descendsAll_run wellFormed inSsa
    obtain ⟨_, _, ranAgain, recoded, _⟩ :=
      GlobalNumbering.run_spec wellFormed inSsa (ready.reachable rfl)
    obtain ⟨rfl, rfl⟩ := Prod.mk.inj (Except.ok.inj (ran.symm.trans ranAgain))
    rw [run, ran]
    dsimp only
    by_cases quiet : log = []
    · left
      rw [sameFunction, descends.quiet quiet, quiet]
      rfl
    · exact .inr (.inl ⟨by simp [quiet], descends.burden_lt recoded quiet⟩)
  | deadCode limit =>
    rw [run]
    rcases DeadCode.run_cases wellFormed limit with same | ⟨settled, isReported, lighter⟩ |
      ⟨cap, rfl, low, failed⟩
    · left
      rw [same]
      rfl
    · right
      left
      dsimp only
      rw [settled]
      exact ⟨by simp [Except.map, isReported], burden_lt.2 (.inl lighter)⟩
    · right
      right
      dsimp only
      rw [failed]
      exact ⟨cap, rfl, low, rfl⟩

end Pass

/-! ## Schedules -/

namespace Schedule

variable {ssa : Bool} {passes : List Pass}

/-- A round of passes changes nothing, and neither does any of them; or it takes some of the burden of
a flow graph away; or dead code elimination gives up because of its limit. -/
theorem runOnce_cases (allowed : ∀ pass ∈ passes, pass.Allowed ssa) {graph : FlowGraph}
    (ready : Ready ssa graph) :
    (runOnce passes graph = ⟨graph, [], .ok false⟩ ∧
      ∀ pass ∈ passes, pass.run graph = ⟨graph, [], .ok false⟩) ∨
    ((runOnce passes graph).result = .ok true ∧ Improved graph (runOnce passes graph).graph ∧
      burden ssa (runOnce passes graph).graph < burden ssa graph) ∨
    ∃ cap, .deadCode (some cap) ∈ passes ∧ cap ≤ graph.instructionCount ∧
      (runOnce passes graph).result =
        .error (.nonConvergence "dead code elimination" (max cap 1)) := by
  induction passes generalizing graph with
  | nil => exact .inl ⟨rfl, by simp⟩
  | cons pass rest restIH =>
    have isAllowed := allowed pass (List.mem_cons_self ..)
    have allowedRest := fun other member => allowed other (List.mem_cons_of_mem pass member)
    have improved := (Pass.run_spec ready isAllowed).1
    rw [runOnce]
    dsimp only
    rcases Pass.run_cases ready isAllowed with quiet | ⟨changed, lower⟩ | ⟨cap, rfl, low, failed⟩
    · -- The pass changes nothing, so the round is that of the others.
      rw [quiet]
      dsimp only
      rcases restIH allowedRest ready with ⟨quietRest, each⟩ | ⟨changedRest, improvedRest, lowerRest⟩ |
        ⟨cap, member, low, failed⟩
      · rw [quietRest]
        refine .inl ⟨rfl, fun other member => ?_⟩
        rcases List.mem_cons.1 member with rfl | inRest
        · exact quiet
        · exact each other inRest
      · rw [changedRest]
        exact .inr (.inl ⟨rfl, improvedRest, lowerRest⟩)
      · rw [failed]
        exact .inr (.inr ⟨cap, List.mem_cons_of_mem _ member, low, rfl⟩)
    · rw [changed]
      dsimp only
      rcases restIH allowedRest (ready.improved improved) with ⟨quietRest, _⟩ |
        ⟨changedRest, improvedRest, lowerRest⟩ | ⟨cap, member, low, failed⟩
      · rw [quietRest]
        exact .inr (.inl ⟨rfl, improved, lower⟩)
      · rw [changedRest]
        exact .inr (.inl ⟨rfl, improved.trans improvedRest, lowerRest.trans lower⟩)
      · rw [failed]
        exact .inr (.inr ⟨cap, List.mem_cons_of_mem _ member,
          low.trans improved.modest.length_instrs, rfl⟩)
    · rw [failed]
      exact .inr (.inr ⟨cap, List.mem_cons_self .., low, failed⟩)

/-- The flow graph that rounds of passes leave, each of which is run on what the one before left. -/
def afterRounds (passes : List Pass) (rounds : Nat) (graph : FlowGraph) : FlowGraph :=
  (fun graph => (runOnce passes graph).graph)^[rounds] graph

@[simp] theorem afterRounds_zero (passes : List Pass) (graph : FlowGraph) :
    afterRounds passes 0 graph = graph := rfl

@[simp] theorem afterRounds_succ (passes : List Pass) (rounds : Nat) (graph : FlowGraph) :
    afterRounds passes (rounds + 1) graph = afterRounds passes rounds (runOnce passes graph).graph :=
  rfl

/-- One more round after some rounds reports a change. -/
def Reports (passes : List Pass) (graph : FlowGraph) (rounds : Nat) : Prop :=
  (runOnce passes (afterRounds passes rounds graph)).result = .ok true

instance (passes : List Pass) (graph : FlowGraph) (rounds : Nat) :
    Decidable (Reports passes graph rounds) := inferInstanceAs (Decidable (_ = _))

/-- Each of some rounds reports a change, and the next one changes nothing and says so. -/
structure SettlesAfter (passes : List Pass) (graph : FlowGraph) (rounds : Nat) : Prop where
  /-- The rounds report changes. -/
  reports : ∀ earlier < rounds, Reports passes graph earlier
  /-- The next one changes nothing. -/
  quiet : runOnce passes (afterRounds passes rounds graph) =
    ⟨afterRounds passes rounds graph, [], .ok false⟩

/-- A round that changes nothing reports no change. -/
theorem SettlesAfter.not_reports {graph : FlowGraph} {rounds : Nat}
    (settles : SettlesAfter passes graph rounds) : ¬Reports passes graph rounds := by
  rw [Reports, settles.quiet]
  exact fun impossible => by cases impossible

/-- A round that reports a change comes before those that the flow graph which it leaves takes. -/
theorem SettlesAfter.succ {graph : FlowGraph} {rounds : Nat} (changed : Reports passes graph 0)
    (settles : SettlesAfter passes (runOnce passes graph).graph rounds) :
    SettlesAfter passes graph (rounds + 1) := by
  refine ⟨fun earlier before => ?_, settles.quiet⟩
  cases earlier with
  | zero => exact changed
  | succ earlier => exact settles.reports earlier (Nat.lt_of_succ_lt_succ before)

/-- Rounds of passes without limits stop at the first that changes nothing, or else each of them
reports a change. -/
theorem runRounds_cases (allowed : ∀ pass ∈ passes, pass.Allowed ssa)
    (unlimited : ∀ limit, Pass.deadCode (some limit) ∉ passes) (budget round : Nat)
    {graph : FlowGraph} (ready : Ready ssa graph) :
    (∃ rounds < budget, SettlesAfter passes graph rounds ∧
      (runRounds passes budget round graph).graph = afterRounds passes rounds graph ∧
      (runRounds passes budget round graph).result = .ok (some (round + rounds))) ∨
    (∀ rounds < budget, Reports passes graph rounds) ∧
      (runRounds passes budget round graph).result = .ok none := by
  induction budget generalizing graph round with
  | zero => exact .inr ⟨fun rounds impossible => absurd impossible (Nat.not_lt_zero rounds), rfl⟩
  | succ budget budgetIH =>
    rw [runRounds]
    rcases runOnce_cases allowed ready with ⟨quiet, _⟩ | ⟨changed, improved, _⟩ | ⟨cap, member, _⟩
    · rw [quiet]
      refine .inl ⟨0, Nat.succ_pos budget, ⟨fun earlier impossible => ?_, quiet⟩, rfl, rfl⟩
      exact absurd impossible (Nat.not_lt_zero earlier)
    · simp only [changed]
      rcases budgetIH (round + 1) (ready.improved improved) with
        ⟨rounds, within, settles, isGraph, isResult⟩ | ⟨reports, isResult⟩
      · refine .inl ⟨rounds + 1, Nat.succ_lt_succ within, settles.succ changed, isGraph, ?_⟩
        rw [isResult, Nat.add_assoc, Nat.add_comm 1]
      · refine .inr ⟨fun rounds within => ?_, isResult⟩
        cases rounds with
        | zero => exact changed
        | succ rounds => exact reports rounds (Nat.lt_of_succ_lt_succ within)
    · exact absurd member (unlimited cap)

/-- A schedule of passes without limits stops at the first round that changes nothing, or else each of
the rounds that it may take reports a change and it does not settle. -/
theorem run_cases {schedule : Schedule} (allowed : ∀ pass ∈ schedule.passes, pass.Allowed ssa)
    (unlimited : ∀ limit, Pass.deadCode (some limit) ∉ schedule.passes) {graph : FlowGraph}
    (ready : Ready ssa graph) :
    (∃ rounds < max schedule.limit 1, SettlesAfter schedule.passes graph rounds ∧
      (schedule.run graph).graph = afterRounds schedule.passes rounds graph ∧
      (schedule.run graph).result = .ok (rounds + 1)) ∨
    (∀ rounds < max schedule.limit 1, Reports schedule.passes graph rounds) ∧
      (schedule.run graph).result =
        .error (.nonConvergence "pass scheduler" (max schedule.limit 1)) := by
  rw [run]
  rcases runRounds_cases allowed unlimited (max schedule.limit 1) 1 ready with
    ⟨rounds, within, settles, isGraph, isResult⟩ | ⟨reports, isResult⟩
  · refine .inl ⟨rounds, within, settles, isGraph, ?_⟩
    simp only [isResult, Nat.add_comm rounds]
    rfl
  · refine .inr ⟨reports, ?_⟩
    simp only [isResult]
    rfl

/-- Rounds settle if there are enough of them, or dead code elimination gives up because of its
limit. -/
theorem runRounds_settles (allowed : ∀ pass ∈ passes, pass.Allowed ssa) (graph : FlowGraph)
    (ready : Ready ssa graph) :
    (∃ bound, ∀ budget, bound ≤ budget → ∀ round, ∃ rounds,
      (runRounds passes budget round graph).result = .ok (some rounds)) ∨
    ∃ bound cap, .deadCode (some cap) ∈ passes ∧ cap ≤ graph.instructionCount ∧
      ∀ budget, bound ≤ budget → ∀ round, (runRounds passes budget round graph).result =
        .error (.nonConvergence "dead code elimination" (max cap 1)) := by
  induction lower : burden ssa graph using WellFoundedLT.induction generalizing graph with
  | ind load loadIH =>
    subst lower
    rcases runOnce_cases allowed ready with ⟨quiet, _⟩ | ⟨changed, improved, lower⟩ |
      ⟨cap, member, low, failed⟩
    · refine .inl ⟨1, fun budget enough round => ⟨round, ?_⟩⟩
      obtain ⟨more, rfl⟩ := Nat.exists_eq_add_of_le' enough
      rw [runRounds, quiet]
    · -- The first round is followed by those that the rest of the burden takes.
      have first : ∀ budget round, (runRounds passes (budget + 1) round graph).result =
          (runRounds passes budget (round + 1) (runOnce passes graph).graph).result := by
        intro budget round
        rw [runRounds]
        simp only [changed]
      rcases loadIH _ lower _ (ready.improved improved) rfl with ⟨bound, settles⟩ |
        ⟨bound, cap, member, low, fails⟩
      · refine .inl ⟨bound + 1, fun budget enough round => ?_⟩
        obtain ⟨more, rfl⟩ := Nat.exists_eq_add_of_le' enough
        rw [← Nat.add_assoc, first]
        exact settles _ (Nat.le_add_left ..) _
      · refine .inr ⟨bound + 1, cap, member, low.trans improved.modest.length_instrs,
          fun budget enough round => ?_⟩
        obtain ⟨more, rfl⟩ := Nat.exists_eq_add_of_le' enough
        rw [← Nat.add_assoc, first]
        exact fails _ (Nat.le_add_left ..) _
    · refine .inr ⟨1, cap, member, low, fun budget enough round => ?_⟩
      obtain ⟨more, rfl⟩ := Nat.exists_eq_add_of_le' enough
      rw [runRounds]
      simp only [failed]

/-- Rounds of passes without limits come to one that changes nothing. -/
theorem exists_settlesAfter (allowed : ∀ pass ∈ passes, pass.Allowed ssa)
    (unlimited : ∀ limit, Pass.deadCode (some limit) ∉ passes) {graph : FlowGraph}
    (ready : Ready ssa graph) : ∃ rounds, SettlesAfter passes graph rounds := by
  rcases runRounds_settles allowed graph ready with ⟨bound, settles⟩ | ⟨_, cap, member, _⟩
  · obtain ⟨_, isResult⟩ := settles bound (Nat.le_refl bound) 1
    rcases runRounds_cases allowed unlimited bound 1 ready with
      ⟨rounds, _, settlesAfter, _⟩ | ⟨_, unsettled⟩
    · exact ⟨rounds, settlesAfter⟩
    · rw [unsettled] at isResult
      cases isResult
  · exact absurd member (unlimited cap)

/-- Where rounds settle no pass changes anything. -/
theorem runRounds_fixpoint (allowed : ∀ pass ∈ passes, pass.Allowed ssa) (budget round : Nat)
    {graph : FlowGraph} (ready : Ready ssa graph) {rounds : Nat}
    (settled : (runRounds passes budget round graph).result = .ok (some rounds)) :
    ∀ pass ∈ passes, pass.run (runRounds passes budget round graph).graph =
      ⟨(runRounds passes budget round graph).graph, [], .ok false⟩ := by
  induction budget generalizing graph round with
  | zero => cases settled
  | succ budget budgetIH =>
    rw [runRounds] at settled ⊢
    rcases runOnce_cases allowed ready with ⟨quiet, each⟩ | ⟨changed, improved, _⟩ |
      ⟨cap, _, _, failed⟩
    · rw [quiet]
      exact each
    · simp only [changed] at settled ⊢
      exact budgetIH _ (ready.improved improved) settled
    · simp only [failed] at settled
      cases settled

/-- A flow graph that passes start with: that of a function, or what it became in single assignment,
which some passes ask for. -/
def Starts (passes : List Pass) (function : Func) (graph : FlowGraph) : Prop :=
  ∃ built log, FlowGraph.build function = .ok (built, log) ∧
    ((graph = built ∧ ∀ pass ∈ passes, pass.requiresSsa = false) ∨
      ∃ log, Ssa.construct built = .ok (graph, log))

/-- Passes can be run on the flow graphs that they start with. -/
theorem Starts.exists_ready {function : Func} {graph : FlowGraph}
    (starts : Starts passes function graph)
    (unmerged : ∀ instr ∈ function.instrs, instr.isPhi = false) :
    ∃ ssa, Ready ssa graph ∧ ∀ pass ∈ passes, pass.Allowed ssa := by
  obtain ⟨built, log, isBuilt, ⟨rfl, plain⟩ | ⟨log, constructed⟩⟩ := starts
  · refine ⟨false, ⟨((FlowGraph.builtFrom_of_build isBuilt).of_unmerged unmerged).1, nofun, nofun⟩,
      fun pass member asks => ?_⟩
    rw [plain pass member] at asks
    cases asks
  · rcases Ssa.manages_construct isBuilt unmerged with ⟨result, isResult, good⟩ | ⟨failed, _⟩
    · obtain rfl := Except.ok.inj (constructed.symm.trans isResult)
      exact ⟨true, good.ready, fun pass _ _ => rfl⟩
    · rw [constructed] at failed
      cases failed

/-- The passes never undo each other's changes for ever: from some limit on a schedule settles, unless
dead code elimination gives up because of a limit of its own that is not above the number of
instructions. Where it settles, every pass changes nothing and says so. -/
theorem run_settles_on_fixpoint {function : Func} {graph : FlowGraph}
    (unmerged : ∀ instr ∈ function.instrs, instr.isPhi = false)
    (starts : Starts passes function graph) :
    ((∃ bound, ∀ limit, bound ≤ limit → ∃ rounds, (run ⟨passes, limit⟩ graph).result = .ok rounds) ∨
      ∃ bound cap, .deadCode (some cap) ∈ passes ∧ cap ≤ graph.instructionCount ∧
        ∀ limit, bound ≤ limit → (run ⟨passes, limit⟩ graph).result =
          .error (.nonConvergence "dead code elimination" (max cap 1))) ∧
    ∀ limit rounds, (run ⟨passes, limit⟩ graph).result = .ok rounds → ∀ pass ∈ passes,
      pass.run (run ⟨passes, limit⟩ graph).graph =
        ⟨(run ⟨passes, limit⟩ graph).graph, [], .ok false⟩ := by
  obtain ⟨ssa, ready, allowed⟩ := starts.exists_ready unmerged
  constructor
  · rcases runRounds_settles allowed graph ready with ⟨bound, settles⟩ |
      ⟨bound, cap, member, low, fails⟩
    · refine .inl ⟨bound, fun limit enough => ?_⟩
      obtain ⟨rounds, settled⟩ := settles (max limit 1) (enough.trans (Nat.le_max_left ..)) 1
      refine ⟨rounds, ?_⟩
      rw [run]
      dsimp only
      rw [settled]
      rfl
    · refine .inr ⟨bound, cap, member, low, fun limit enough => ?_⟩
      rw [run]
      dsimp only
      rw [fails (max limit 1) (enough.trans (Nat.le_max_left ..)) 1]
      rfl
  · intro limit rounds settled
    have inRounds : (runRounds passes (max limit 1) 1 graph).result = .ok (some rounds) := by
      rw [run] at settled
      dsimp only at settled
      cases outcome : (runRounds passes (max limit 1) 1 graph).result with
      | error error =>
        rw [outcome] at settled
        cases settled
      | ok answer =>
        rw [outcome] at settled
        cases answer with
        | none => cases settled
        | some number =>
          obtain rfl := Except.ok.inj settled
          rfl
    exact runRounds_fixpoint allowed (max limit 1) 1 ready inRounds

/-- The passes settle on the function that counts. -/
theorem run_settles_on_fixpoint_countUp :
    ∃ built log graph more, FlowGraph.build Ssa.countUp = .ok (built, log) ∧
      Ssa.construct built = .ok (graph, more) ∧
      (∃ bound, ∀ limit, bound ≤ limit → ∃ rounds,
        (run ⟨Pass.all, limit⟩ graph).result = .ok rounds) ∧
      ∀ limit rounds, (run ⟨Pass.all, limit⟩ graph).result = .ok rounds → ∀ pass ∈ Pass.all,
        pass.run (run ⟨Pass.all, limit⟩ graph).graph =
          ⟨(run ⟨Pass.all, limit⟩ graph).graph, [], .ok false⟩ := by
  obtain ⟨built, log, isBuilt⟩ : ∃ built log, FlowGraph.build Ssa.countUp = .ok (built, log) :=
    ⟨_, _, rfl⟩
  obtain ⟨⟨graph, more⟩, constructed, _⟩ :=
    (Ssa.manages_construct isBuilt (by decide)).exists_answer (not_not.2 (by decide))
  have settles := @run_settles_on_fixpoint Pass.all Ssa.countUp graph (by decide)
    ⟨built, log, isBuilt, .inr ⟨more, constructed⟩⟩
  refine ⟨built, log, graph, more, isBuilt, constructed, settles.1.resolve_right ?_, settles.2⟩
  rintro ⟨_, cap, capped, _⟩
  have uncapped : ∀ pass ∈ Pass.all, ∀ cap, pass ≠ .deadCode (some cap) := by
    simp [Pass.all]
  exact uncapped _ capped cap rfl

/-- A function with a variable that is unread, and one that is only read to write it. -/
def unreadChain : Func where
  name := "chain"
  params := []
  returnType := none
  instrs := [.const "a" .int (.int 1), .compute .id "b" .int ["a"], .ret none]
  pos := none

/-- Dead code elimination that may run one round only never settles if a second one is needed. -/
theorem not_run_settles_on_fixpoint : ∃ function passes graph,
    (∀ instr ∈ function.instrs, instr.isPhi = false) ∧ Starts passes function graph ∧
      ¬∃ bound, ∀ limit, bound ≤ limit → ∃ rounds,
        (run ⟨passes, limit⟩ graph).result = .ok rounds := by
  refine ⟨unreadChain, [.deadCode (some 1)], _, by decide,
    ⟨_, _, rfl, .inl ⟨rfl, by decide⟩⟩, ?_⟩
  rintro ⟨bound, settles⟩
  obtain ⟨rounds, settled⟩ := settles (bound + 1) (Nat.le_add_right ..)
  have isLimit : max (bound + 1) 1 = bound + 1 := Nat.max_eq_left (Nat.le_add_left ..)
  rw [run] at settled
  dsimp only at settled
  rw [isLimit] at settled
  cases settled

end Schedule

end Midend
