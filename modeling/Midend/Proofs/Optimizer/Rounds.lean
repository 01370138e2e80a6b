import Midend.Proofs.Optimizer.Independence
import Midend.Proofs.Settling

/-! # Rounds of the default optimizer

By default a function goes into single assignment (`Optimizer.enter`), through rounds of value
numbering and dead code elimination, and back (`Optimizer.emit`). There is only one way for a
well-formed function to fail: that each of sixteen rounds reports a change (`Optimizer.run_settles`).
With a larger limit on the rounds it does not. -/

namespace Midend

namespace Optimizer

/-- The flow graph of a function in single assignment. -/
def enter (function : Func) : Except Error FlowGraph := do
  let (built, _) ← FlowGraph.build function
  let (graph, _) ← Ssa.construct built
  return graph

/-- The code of a flow graph that is taken out of single assignment. -/
def emit (graph : FlowGraph) : Except Error Func := do
  let (left, _) ← Ssa.destruct graph
  left.flatten

/-- What becomes of a function whose flow graph in single assignment is given: the passes settle
after less rounds than the limit, or each of the rounds up to the limit reports a change. -/
inductive Fate (function : Func) (limit : Nat) (graph : FlowGraph) : Func × Option Error → Prop where
  /-- The passes settle, and the code that they leave is written out. -/
  | settled {rounds : Nat} {output : Func} (within : rounds < limit)
      (settles : Schedule.SettlesAfter Pass.all graph rounds)
      (emitted : emit (Schedule.afterRounds Pass.all rounds graph) = .ok output) :
      Fate function limit graph (output, none)
  /-- The passes do not settle, and the function keeps its code. -/
  | unsettled (reports : ∀ rounds < limit, Schedule.Reports Pass.all graph rounds) :
      Fate function limit graph (function,
        some (.functionFailed function.name (.nonConvergence "pass scheduler" limit)))

variable {function : Func} {limit : Nat}

/-- A well-formed function starts with a flow graph. -/
theorem build_of_opening (unmerged : ∀ instr ∈ function.instrs, instr.isPhi = false)
    (checked : function.check = .ok ()) {standing : Standing}
    (opens : opening function = .ok standing) :
    ∃ graph log, FlowGraph.build function = .ok (graph, log) ∧ standing = (some graph, none) := by
  unfold opening at opens
  split at opens
  · rename_i graph log built
    exact ⟨graph, log, built, (Except.ok.inj opens).symm⟩
  · rename_i error failed
    rcases FlowGraph.build_eq_error unmerged failed with refused | ⟨rfl, _⟩
    · rw [checked] at refused
      cases refused
    · cases opens

/-- Work on a flow graph leaves the flow graph that it makes, or a failure that is not fatal. -/
theorem advance_cases {work : FlowGraph → Outcome Nat} {graph : FlowGraph} {standing : Standing}
    (advances : advance true work function (some graph, none) = .ok standing) :
    (∃ answer, (work graph).result = .ok answer ∧ standing = (some (work graph).graph, none)) ∨
    ∃ error, (work graph).result = .error error ∧ error.isFatal = false ∧
      standing = (none, some (error.inFunction function.name)) := by
  rw [advance, if_pos rfl, Session.proceed] at advances
  split at advances
  · rename_i answer succeeds
    exact .inl ⟨answer, succeeds, (Except.ok.inj advances).symm⟩
  · rename_i error fails
    split at advances
    · cases advances
    · rename_i mild
      exact .inr ⟨error, fails, eq_false_of_ne_true mild, (Except.ok.inj advances).symm⟩

/-- A stage that fails for want of keys only leaves the flow graph that it makes. -/
theorem advance_stage {stage : FlowGraph → Except Error (FlowGraph × Log)} {graph : FlowGraph}
    {standing : Standing} {cause : Prop} {good : FlowGraph × Log → Prop}
    (manages : Manages cause (stage graph) good)
    (advances : advance true (Session.stageWork stage) function (some graph, none) = .ok standing) :
    ∃ after log, stage graph = .ok (after, log) ∧ good (after, log) ∧
      standing = (some after, none) := by
  have cases := advance_cases advances
  rw [Session.stageWork] at cases
  rcases manages with ⟨⟨after, log⟩, done, isGood⟩ | ⟨failed, _⟩
  · rw [done] at cases
    rcases cases with ⟨_, _, stands⟩ | ⟨_, impossible, _⟩
    · exact ⟨after, log, done, isGood, stands⟩
    · cases impossible
  · rw [failed] at cases
    rcases cases with ⟨_, impossible, _⟩ | ⟨error, isError, mild, _⟩
    · cases impossible
    · obtain rfl := Except.error.inj isError
      cases mild

/-- A well-formed function that does not run out of keys has a fate. -/
theorem exists_fate (unmerged : ∀ instr ∈ function.instrs, instr.isPhi = false)
    (checked : function.check = .ok ()) {outcome : Func × Option Error}
    (comes : outcomeOf { roundLimit := limit } function = .ok outcome) :
    ∃ graph, enter function = .ok graph ∧ Fate function (max limit 1) graph outcome := by
  -- Single assignment is entered first, so the stages are taken apart from the last one on.
  obtain ⟨last, develops, comes⟩ := Attempt.bind_eq_ok.1 comes
  rw [develop_eq] at develops
  obtain ⟨passed, develops, isLast⟩ := Attempt.bind_eq_ok.1 develops
  obtain ⟨formed, develops, isPassed⟩ := Attempt.bind_eq_ok.1 develops
  obtain ⟨opened, opens, isFormed⟩ := Attempt.bind_eq_ok.1 develops
  obtain ⟨built, log, isBuilt, rfl⟩ := build_of_opening unmerged checked opens
  obtain ⟨graph, more, isGraph, constructed, rfl⟩ :=
    advance_stage (Ssa.manages_construct isBuilt unmerged) isFormed
  refine ⟨graph, Attempt.bind_eq_ok.2 ⟨_, isBuilt, Attempt.bind_eq_ok.2 ⟨_, isGraph, rfl⟩⟩, ?_⟩
  obtain ⟨allowed, unlimited⟩ := Settings.schedule_spec { roundLimit := limit }
  have improved := (Schedule.run_spec allowed unlimited constructed.ready).1
  rcases Schedule.run_cases allowed unlimited constructed.ready with
    ⟨rounds, within, settles, isAfter, isResult⟩ | ⟨reports, isResult⟩
  · rw [isAfter] at improved
    rcases advance_cases isPassed with ⟨_, _, rfl⟩ | ⟨_, impossible, _⟩
    · rw [isAfter] at isLast
      obtain ⟨left, _, isLeft, _, rfl⟩ :=
        advance_stage (Ssa.manages_destruct constructed improved) isLast
      obtain ⟨output, flat, isOutcome⟩ := Attempt.bind_eq_ok.1 comes
      obtain rfl := Except.ok.inj isOutcome
      refine .settled within settles ?_
      rw [emit]
      exact Attempt.bind_eq_ok.2 ⟨_, isLeft, flat⟩
    · rw [isResult] at impossible
      cases impossible
  · rcases advance_cases isPassed with ⟨_, impossible, _⟩ | ⟨error, isError, _, rfl⟩
    · rw [isResult] at impossible
      cases impossible
    · obtain rfl := Except.error.inj (isResult.symm.trans isError)
      -- What failed stays as it is at the last stage.
      obtain rfl := Except.ok.inj isLast
      obtain rfl := Except.ok.inj comes
      exact .unsettled reports

/-- A program of one function comes to what becomes of the function. -/
theorem separately_single (settings : Settings) (function : Func) :
    separately settings ⟨[function]⟩ = (outcomeOf settings function).map fun outcome =>
      (⟨[outcome.1]⟩, (outcome.2.map fun error => (function.name, error)).toList) := by
  unfold separately
  rw [List.mapM_cons]
  rcases outcomeOf settings function with error | ⟨output, _ | error⟩ <;> rfl

/-- A well-formed function comes out of the optimizer as its fate is. -/
theorem manages_fate (unmerged : ∀ instr ∈ function.instrs, instr.isPhi = false)
    (checked : function.check = .ok ()) (links : Program.checkLinkage ⟨[function]⟩ = .ok ())
    (limit : Nat) :
    Manages (¬function.LeavesKeys) (run { roundLimit := limit } ⟨[function]⟩) fun optimized =>
      ∃ graph output failure, enter function = .ok graph ∧
        Fate function (max limit 1) graph (output, failure) ∧ optimized.program = ⟨[output]⟩ ∧
        optimized.failures = (failure.map fun error => (function.name, error)).toList := by
  have view := view_of_runsBy sound_inTurn links
    (@runsBy_inTurn { roundLimit := limit } ⟨[function]⟩ links)
  rw [separately_single] at view
  rcases @manages_run { roundLimit := limit } ⟨[function]⟩ links (by simpa using unmerged) with
    ⟨optimized, done, _⟩ | ⟨failed, few⟩
  · rw [done] at view
    obtain ⟨⟨output, failure⟩, comes, isView⟩ := Attempt.map_eq_ok.1 view.symm
    obtain ⟨isProgram, isFailures⟩ := Prod.mk.inj isView
    obtain ⟨graph, entered, fate⟩ := exists_fate unmerged checked comes
    exact .inl ⟨optimized, done, graph, output, failure, entered, fate, isProgram.symm,
      isFailures.symm⟩
  · refine .inr ⟨failed, fun room => few ?_⟩
    simpa [Program.LeavesKeys] using room

/-- The passes settle on the flow graph of a function in single assignment. -/
theorem exists_settlesAfter_of_enter (unmerged : ∀ instr ∈ function.instrs, instr.isPhi = false)
    {graph : FlowGraph} (entered : enter function = .ok graph) :
    ∃ rounds, Schedule.SettlesAfter Pass.all graph rounds := by
  obtain ⟨⟨built, log⟩, isBuilt, entered⟩ := Attempt.bind_eq_ok.1 entered
  obtain ⟨⟨formed, more⟩, isFormed, same⟩ := Attempt.bind_eq_ok.1 entered
  obtain rfl := Except.ok.inj same
  obtain ⟨allowed, unlimited⟩ := Settings.schedule_spec {}
  rcases Ssa.manages_construct isBuilt unmerged with ⟨_, isResult, constructed⟩ | ⟨failed, _⟩
  · obtain rfl := Except.ok.inj (isFormed.symm.trans isResult)
    exact Schedule.exists_settlesAfter allowed unlimited constructed.ready
  · rw [isFormed] at failed
    cases failed

/-- A well-formed function is optimized without a failure exactly if one of the first sixteen rounds of
passes on it reports no change. Its code is then that of the flow graph at the first such round; if
each of the rounds reports a change, that is the only failure and the function keeps its code. With
a limit that is large enough there is no failure. -/
theorem run_settles {function : Func} (unmerged : ∀ instr ∈ function.instrs, instr.isPhi = false)
    (checked : function.check = .ok ()) (links : Program.checkLinkage ⟨[function]⟩ = .ok ()) :
    (Manages (¬function.LeavesKeys) (run {} ⟨[function]⟩) fun optimized =>
      ∃ graph, enter function = .ok graph ∧
        (optimized.failures = [] ↔ ∃ rounds < 16, ¬Schedule.Reports Pass.all graph rounds) ∧
        ((∃ rounds < 16, Schedule.SettlesAfter Pass.all graph rounds ∧ optimized.failures = [] ∧
            ∃ output, emit (Schedule.afterRounds Pass.all rounds graph) = .ok output ∧
              optimized.program = ⟨[output]⟩) ∨
          (∀ rounds < 16, Schedule.Reports Pass.all graph rounds) ∧
            optimized.failures = [(function.name,
              .functionFailed function.name (.nonConvergence "pass scheduler" 16))] ∧
            optimized.program = ⟨[function]⟩)) ∧
    ∃ bound, ∀ limit, bound ≤ limit →
      Manages (¬function.LeavesKeys) (run { roundLimit := limit } ⟨[function]⟩)
        fun optimized => optimized.failures = [] := by
  constructor
  · refine (manages_fate unmerged checked links 16).mono id ?_
    rintro ⟨program, log, failures, statistics⟩ ⟨graph, output, failure, entered, fate, rfl, rfl⟩
    refine ⟨graph, entered, ?_⟩
    cases fate with
    | @settled rounds _ within settles emitted =>
      exact ⟨⟨fun _ => ⟨rounds, within, settles.not_reports⟩, fun _ => rfl⟩,
        .inl ⟨rounds, within, settles, rfl, output, emitted, rfl⟩⟩
    | unsettled reports =>
      refine ⟨⟨nofun, ?_⟩, .inr ⟨reports, rfl, rfl⟩⟩
      exact fun ⟨rounds, within, quiet⟩ => absurd (reports rounds within) quiet
  · -- A function that does not get into single assignment runs out of keys, whatever the limit.
    cases entered : enter function with
    | error error =>
      refine ⟨0, fun limit _ => (manages_fate unmerged checked links limit).mono id ?_⟩
      rintro optimized ⟨graph, _, _, isGraph, _⟩
      rw [entered] at isGraph
      cases isGraph
    | ok graph =>
      obtain ⟨rounds, settles⟩ := exists_settlesAfter_of_enter unmerged entered
      refine ⟨rounds + 1, fun limit enough => (manages_fate unmerged checked links limit).mono id ?_⟩
      rintro optimized ⟨_, output, failure, isGraph, fate, _, isFailures⟩
      obtain rfl := Except.ok.inj (entered.symm.trans isGraph)
      cases fate with
      | settled => exact isFailures
      | unsettled reports =>
        refine absurd (reports rounds ?_) settles.not_reports
        exact Nat.lt_of_lt_of_le enough (Nat.le_max_left ..)

/-- The function that counts is optimized without a failure: the second round on it reports no
change. -/
theorem run_settles_countUp : ∃ optimized graph, run {} ⟨[Ssa.countUp]⟩ = .ok optimized ∧
    optimized.failures = [] ∧ enter Ssa.countUp = .ok graph ∧
      Schedule.SettlesAfter Pass.all graph 1 ∧ ∃ output,
        emit (Schedule.afterRounds Pass.all 1 graph) = .ok output ∧
          optimized.program = ⟨[output]⟩ := by
  obtain ⟨optimized, done, graph, entered, unfailing, fate⟩ :=
    (@run_settles Ssa.countUp (by decide) rfl rfl).1.exists_answer (not_not.2 (by decide))
  -- The first round reports a change and the second does not.
  have rounds : (enter Ssa.countUp).map (fun graph => decide (Schedule.Reports Pass.all graph 0 ∧
      ¬Schedule.Reports Pass.all graph 1)) = .ok true := by
    decide +kernel
  rw [entered] at rounds
  obtain ⟨first, second⟩ := of_decide_eq_true (Except.ok.inj rounds)
  have unfailed := unfailing.2 ⟨1, by decide, second⟩
  refine ⟨optimized, graph, done, unfailed, entered, ?_⟩
  rcases fate with ⟨rounds, _, settles, _, emitted⟩ | ⟨_, failed, _⟩
  · obtain rfl : rounds = 1 := by
      rcases Nat.lt_trichotomy rounds 1 with before | same | later
      · obtain rfl := Nat.lt_one_iff.1 before
        exact absurd first settles.not_reports
      · exact same
      · exact absurd (settles.reports 1 later) second
    exact ⟨settles, emitted⟩
  · rw [unfailed] at failed
    cases failed

/-- A loop that moves a number through variables, one variable a round. -/
def delayLine (stages : List String) : Func where
  name := "delay"
  params := [⟨"x", .int⟩, ⟨"more", .bool⟩]
  returnType := some .int
  instrs := stages.reverse.map (fun stage => .compute .id stage .int ["x"]) ++
    [.label "loop", .br "more" "shift" "done", .label "shift"] ++
    List.zipWith (fun stage next => .compute .id stage .int [next]) stages
      (stages.tail ++ ["x"]) ++
    [.jmp "loop", .label "done", .ret stages.head?]
  pos := none

/-- The passes do not settle for a line of fifteen variables: a round simplifies one merge. -/
theorem not_run_settles : ∃ function : Func, (∀ instr ∈ function.instrs, instr.isPhi = false) ∧
    function.check = .ok () ∧ Program.checkLinkage ⟨[function]⟩ = .ok () ∧ function.LeavesKeys ∧
      ∃ optimized, run {} ⟨[function]⟩ = .ok optimized ∧ optimized.failures ≠ [] := by
  refine ⟨delayLine ["a", "b", "c", "d", "e", "f", "g", "h", "i", "j", "k", "l", "m", "n", "o"],
    by decide, by decide +kernel, by decide +kernel, by decide, ?_⟩
  have fails : (run {} ⟨[delayLine
      ["a", "b", "c", "d", "e", "f", "g", "h", "i", "j", "k", "l", "m", "n", "o"]]⟩).map
        (fun optimized => optimized.failures.isEmpty) = .ok false := by
    decide +kernel
  obtain ⟨optimized, done, unempty⟩ := Attempt.map_eq_ok.1 fails
  exact ⟨optimized, done, by simpa using unempty⟩

end Optimizer

end Midend
