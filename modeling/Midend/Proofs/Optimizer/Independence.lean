import Midend.Proofs.FlowGraph.Signature
import Midend.Proofs.Optimizer
import Midend.Proofs.Workers

/-! # Independence of functions

An optimizer takes the functions of a program through its stages together. What becomes of a
function depends on the settings and on the function alone (`Optimizer.outcomeOf`): not on the other
functions of the program, and not on the order in which workers have their turns at a stage
(`Optimizer.view_of_runsBy`). -/

namespace Midend

/-- What is seen of an optimized program, reports aside: the code, and the failures by name. -/
def Optimized.view (optimized : Optimized) : Program × List (String × Error) :=
  (optimized.program, optimized.failures)

namespace Optimizer

open Session (Named Keyed Proceeds proceed standing)

/-! ## Functions on their own -/

/-- How a function stands at the start: with its flow graph, or with the error that it has none. -/
def opening (function : Func) : Except Error Standing :=
  match FlowGraph.build function with
  | .ok (graph, _) => .ok (some graph, none)
  | .error error =>
    if error.isFatal then .error error else .ok (none, some (error.inFunction function.name))

/-- How a function stands after work of a stage, if the stage takes place. -/
def advance (takesPlace : Bool) (work : FlowGraph → Outcome Nat) (function : Func)
    (standing : Standing) : Except Error Standing :=
  if takesPlace then proceed work function.name standing else .ok standing

/-- How a function stands after all stages. -/
def develop (settings : Settings) (function : Func) : Except Error Standing := do
  let built ← opening function
  let formed ← advance settings.ssa (Session.stageWork Ssa.construct) function built
  let passed ← advance (!settings.schedule.passes.isEmpty) settings.schedule.run function formed
  advance settings.ssa (Session.stageWork Ssa.destruct) function passed

/-- What becomes of a function on its own: its code, and its failure if it failed. -/
def outcomeOf (settings : Settings) (function : Func) : Except Error (Func × Option Error) := do
  let standing ← develop settings function
  match standing.1 with
  | some graph => return (← graph.flatten, standing.2)
  | none => return (function, standing.2)

/-- The failures among functions, by name. -/
def failuresOf (fates : List (Func × Option Error)) : SortedMap String Error :=
  .ofList (fates.filterMap fun fate => fate.2.map fun error => (fate.1.name, error))

/-- What becomes of the functions of a program when each is optimized on its own: the program, and
the failures by name. -/
def separately (settings : Settings) (program : Program) :
    Except Error (Program × List (String × Error)) := do
  let outcomes ← program.functions.mapM (outcomeOf settings)
  return (⟨outcomes.map Prod.fst⟩,
    (failuresOf (program.functions.zip (outcomes.map Prod.snd))).toList)

/-- Functions with different names fail under their names. -/
theorem get?_failuresOf {fates : List (Func × Option Error)}
    (nodup : (fates.map fun fate => fate.1.name).Nodup) {name : String} {error : Error} :
    (failuresOf fates).get? name = some error ↔
      ∃ function, (function, some error) ∈ fates ∧ function.name = name := by
  have sublist : List.Sublist ((fates.filterMap fun fate =>
      fate.2.map fun error => (fate.1.name, error)).map Prod.fst)
        (fates.map fun fate => fate.1.name) := by
    clear nodup
    induction fates with
    | nil => exact .slnil
    | cons fate rest restIH =>
      rw [List.filterMap_cons]
      cases fate.2 with
      | none => exact restIH.cons _
      | some error => exact restIH.cons_cons _
  rw [failuresOf, SortedMap.get?_ofList_eq_some_iff (nodup.sublist sublist), List.mem_filterMap]
  constructor
  · rintro ⟨⟨function, failure⟩, member, isEntry⟩
    obtain ⟨_, rfl, same⟩ := Option.map_eq_some_iff.1 isEntry
    obtain ⟨rfl, rfl⟩ := Prod.mk.inj same
    exact ⟨function, member, rfl⟩
  · rintro ⟨function, member, rfl⟩
    exact ⟨_, member, rfl⟩

/-! ## Stages by workers -/

section Sequence

variable {α β : Type}

/-- One computation after another, where the first may have several results. -/
def Sequel (first : Except Error α → Prop) (next : α → Except Error β → Prop)
    (result : Except Error β) : Prop :=
  (∃ error, first (.error error) ∧ result = .error error) ∨
    ∃ answer, first (.ok answer) ∧ next answer result

end Sequence

/-- A way to work on all functions of a session: what it may come to, with the largest answer. -/
abbrev Works := (FlowGraph → Outcome Nat) → Session → Except Error (Nat × Session) → Prop

/-- One function after the other. -/
def InTurn : Works := fun work session result =>
  result = Session.workOnAll work session.names 0 session

/-- All functions of a session are taken through a stage, if it takes place. -/
def StageBy (works : Works) (takesPlace : Bool)
    (stage : FlowGraph → Except Error (FlowGraph × Log)) (session : Session)
    (result : Except Error Session) : Prop :=
  if takesPlace then
    ∃ worked, works (Session.stageWork stage) session worked ∧ result = worked.map Prod.snd
  else result = .ok session

/-- A report of each pass of a schedule. -/
def notes (schedule : Schedule) (kind : Event.Kind) (message : Pass → String) : Log :=
  schedule.passes.map fun pass => { kind, pass := some pass.name, message := message pass }

/-- A schedule is run on all functions of a session, with reports before and after. -/
def ScheduleBy (works : Works) (schedule : Schedule) (session : Session)
    (result : Except Error (Nat × Session)) : Prop :=
  if schedule.passes.isEmpty then result = .ok (0, session)
  else
    ∃ worked,
      works schedule.run (session.report (notes schedule .passStarted Pass.description)) worked ∧
      result = worked.map fun answer => (answer.1, answer.2.report
        (notes schedule .passCompleted fun _ => toString answer.1 ++ " rounds"))

/-- What a session comes to at the end: the code of the functions, and the failures by name. -/
def closing (program : Program) (rounds : Nat) (session : Session) : Except Error Optimized := do
  let functions ← program.functions.mapM (finished session)
  return { program := ⟨functions⟩, log := session.log, failures := session.failures.toList,
           statistics := { Statistics.ofLog session.log with iterations := rounds } }

/-- A program is optimized with some way to work on all functions at a stage. -/
def RunsBy (works : Works) (settings : Settings) (program : Program) :
    Except Error Optimized → Prop :=
  Sequel (· = (do program.checkLinkage; insertFunctions program.functions { settings }))
    fun session => Sequel (StageBy works settings.ssa Ssa.construct session) fun formed =>
      Sequel (ScheduleBy works settings.schedule formed) fun passed =>
        Sequel (StageBy works settings.ssa Ssa.destruct passed.2) fun done =>
          (· = closing program passed.1 done)

/-- A program is optimized by workers that have their turns in any order. -/
def Interleaved : Settings → Program → Except Error Optimized → Prop := RunsBy Workshop.Makes

/-- Work that does not change the names of functions comes to what it comes to for each of them. -/
def Works.Sound (works : Works) : Prop :=
  ∀ work session result, Named work → session.Keyed → works work session result →
    Proceeds work session (result.map Prod.snd)

/-- Workers come to what the functions come to on their own. -/
theorem sound_makes : Works.Sound Workshop.Makes := fun _ _ _ named keyed makes =>
  makes.proceeds named keyed

/-- One function after the other comes to the same. -/
theorem sound_inTurn : Works.Sound InTurn := by
  rintro work session result named keyed rfl
  exact Session.proceeds_workOnAll named keyed

/-! ## Names -/

/-- A stage that keeps the signature of what it makes keeps signatures. -/
theorem signature_stageWork {stage : FlowGraph → Except Error (FlowGraph × Log)}
    (keeps : ∀ graph after log, stage graph = .ok (after, log) → after.signature = graph.signature)
    (graph : FlowGraph) : (Session.stageWork stage graph).graph.signature = graph.signature := by
  unfold Session.stageWork
  split
  · rename_i after log done
    exact keeps graph after log done
  · rfl

/-- A stage that keeps the signature does not change names. -/
theorem named_stageWork {stage : FlowGraph → Except Error (FlowGraph × Log)}
    (keeps : ∀ graph after log, stage graph = .ok (after, log) → after.signature = graph.signature) :
    Named (Session.stageWork stage) := fun graph =>
  congrArg Signature.name (signature_stageWork keeps graph)

/-- A schedule does not change names. -/
theorem named_schedule (schedule : Schedule) : Named schedule.run := fun graph =>
  congrArg Signature.name (schedule.signature_run graph)

/-! ## Standings of the functions of a program -/

variable {settings : Settings} {program : Program} {fate next : Func → Except Error Standing}

/-- Every function of a program stands in a session as its fate is, and there are no others. -/
structure Stands (settings : Settings) (program : Program) (fate : Func → Except Error Standing)
    (session : Session) : Prop where
  /-- The settings stay. -/
  settings_eq : session.settings = settings
  /-- Flow graphs are kept under the names of their functions. -/
  keyed : session.Keyed
  /-- Functions stand as their fates are. -/
  each : ∀ name function, program.find? name = some function →
    fate function = .ok (session.standing name)
  /-- There are no other functions. -/
  others : ∀ name, program.find? name = none → session.standing name = (none, none)

/-- What the functions of a program come to: a session in which they stand as their fates are, or
the fatal error of one of them. -/
def Fares (settings : Settings) (program : Program) (fate : Func → Except Error Standing) :
    Except Error Session → Prop
  | .ok session => Stands settings program fate session
  | .error error => ∃ function ∈ program.functions, fate function = .error error

/-- Work on all functions adds to their fates. -/
theorem Stands.proceeds {session : Session} (stands : Stands settings program fate session)
    {work : FlowGraph → Outcome Nat} {result : Except Error Session}
    (proceeds : Proceeds work session result) :
    Fares settings program (fun function => fate function >>= proceed work function.name) result := by
  cases result with
  | ok after =>
    obtain ⟨settings_eq, keyed, fares⟩ := proceeds
    refine ⟨settings_eq.trans stands.settings_eq, keyed, fun name function found => ?_,
      fun name missing => ?_⟩
    · rw [stands.each name function found, Attempt.ok_bind, Program.name_of_find? found]
      exact fares name
    · have stays := fares name
      rw [stands.others name missing, proceed] at stays
      exact (Except.ok.inj stays).symm
  | error error =>
    obtain ⟨name, failed⟩ := proceeds
    cases found : program.find? name with
    | none =>
      rw [stands.others name found, proceed] at failed
      cases failed
    | some function =>
      refine ⟨function, List.mem_of_find?_eq_some found, ?_⟩
      dsimp only
      rw [stands.each name function found, Attempt.ok_bind, Program.name_of_find? found]
      exact failed

/-- Reports change nothing else. -/
theorem Stands.report {session : Session} (stands : Stands settings program fate session)
    (log : Log) : Stands settings program fate (session.report log) :=
  ⟨stands.settings_eq, stands.keyed, stands.each, stands.others⟩

/-- A fatal error stays. -/
theorem fares_error {error : Error} (fares : Fares settings program fate (.error error))
    (more : Func → Standing → Except Error Standing) :
    Fares settings program (fun function => fate function >>= more function) (.error error) := by
  obtain ⟨function, member, failed⟩ := fares
  exact ⟨function, member, by dsimp only; rw [failed]; rfl⟩

/-- A stage that is left out leaves the fates. -/
theorem Stands.unchanged {session : Session} (stands : Stands settings program fate session)
    (work : FlowGraph → Outcome Nat) :
    Stands settings program (fun function => fate function >>= advance false work function)
      session := by
  refine ⟨stands.settings_eq, stands.keyed, fun name function found => ?_, stands.others⟩
  rw [stands.each name function found]
  rfl

section Stages

variable {works : Works} (sound : works.Sound)

include sound

/-- What functions come to by a stage. -/
theorem fares_stage {session : Session} (stands : Stands settings program fate session)
    {stage : FlowGraph → Except Error (FlowGraph × Log)} (named : Named (Session.stageWork stage))
    {takesPlace : Bool} {result : Except Error Session}
    (done : StageBy works takesPlace stage session result) :
    Fares settings program
      (fun function => fate function >>= advance takesPlace (Session.stageWork stage) function)
      result := by
  unfold StageBy at done
  cases takesPlace with
  | true =>
    rw [if_pos rfl] at done
    obtain ⟨worked, isWorked, rfl⟩ := done
    exact stands.proceeds (sound _ session worked named stands.keyed isWorked)
  | false =>
    rw [if_neg Bool.false_ne_true] at done
    exact done ▸ stands.unchanged _

/-- What functions come to by a schedule. -/
theorem fares_schedule {session : Session} (stands : Stands settings program fate session)
    {schedule : Schedule} {result : Except Error (Nat × Session)}
    (done : ScheduleBy works schedule session result) :
    Fares settings program
      (fun function => fate function >>= advance (!schedule.passes.isEmpty) schedule.run function)
      (result.map Prod.snd) := by
  unfold ScheduleBy at done
  cases none : schedule.passes.isEmpty with
  | true =>
    rw [if_pos none] at done
    exact done ▸ stands.unchanged _
  | false =>
    rw [if_neg (by simp [none])] at done
    obtain ⟨worked, isWorked, rfl⟩ := done
    have started := stands.report (notes schedule .passStarted Pass.description)
    have fares := started.proceeds
      (sound _ _ worked (named_schedule schedule) started.keyed isWorked)
    cases worked with
    | ok answer => exact fares.report _
    | error error => exact fares

end Stages

/-- A session in which the given functions stand as they open, and the others as they stood. -/
structure Opened (functions : List Func) (session after : Session) : Prop where
  /-- The settings stay. -/
  settings_eq : after.settings = session.settings
  /-- Flow graphs are kept under the names of their functions. -/
  keyed : after.Keyed
  /-- The functions stand as they open. -/
  opens : ∀ function ∈ functions, opening function = .ok (after.standing function.name)
  /-- The others stand as they stood. -/
  others : ∀ name, name ∉ functions.map Func.name → after.standing name = session.standing name

/-- One function opens a session, and others go on from there. -/
theorem Opened.cons {first : Func} {rest : List Func} {session middle after : Session}
    (absent : first.name ∉ rest.map Func.name) (here : Opened [first] session middle)
    (opened : Opened rest middle after) : Opened (first :: rest) session after := by
  refine ⟨opened.settings_eq.trans here.settings_eq, opened.keyed,
    List.forall_mem_cons.2 ⟨?_, opened.opens⟩, fun name missing => ?_⟩
  · rw [opened.others first.name absent]
    exact here.opens first (List.mem_singleton_self _)
  · rw [List.map_cons, List.mem_cons, not_or] at missing
    exact (opened.others name missing.2).trans (here.others name (by simpa using missing.1))

/-- A function that is new to a session opens it, unless it fails for good. -/
theorem insertFunctions_cons (first : Func) (rest : List Func) {session : Session}
    (keyed : session.Keyed) (unfailed : (session.standing first.name).2 = none) :
    (∃ error, insertFunctions (first :: rest) session = .error error ∧
      opening first = .error error) ∨
    ∃ middle, insertFunctions (first :: rest) session = insertFunctions rest middle ∧
      Opened [first] session middle := by
  rw [insertFunctions]
  cases built : FlowGraph.build first with
  | ok result =>
    obtain ⟨graph, log⟩ := result
    have isName : graph.name = first.name :=
      congrArg Signature.name (FlowGraph.signature_build built)
    have kept : (session.report log).Keyed := keyed
    refine .inr ⟨_, rfl, rfl, kept.insert graph, List.forall_mem_singleton.2 ?_,
      fun name apart => ?_⟩
    · rw [opening, built, Session.standing_insert, if_pos isName.symm]
      exact congrArg (fun failure => Except.ok (some graph, failure)) unfailed.symm
    · have apart : name ≠ first.name := by simpa using apart
      rw [Session.standing_insert, if_neg fun same => apart (same.trans isName)]
      rfl
  | error error =>
    -- A fatal error ends the session; any other one is noted down for this function only.
    by_cases fatal : error.isFatal = true
    · refine .inl ⟨error, ?_, ?_⟩
      · dsimp only
        rw [Session.failIn, if_pos fatal]
        rfl
      · rw [opening, built]
        exact if_pos fatal
    · refine .inr ⟨session.fail first.name (error.inFunction first.name), ?_, rfl,
        keyed.fail _ _, List.forall_mem_singleton.2 ?_, fun name apart => ?_⟩
      · dsimp only
        rw [Session.failIn, if_neg fatal]
        rfl
      · rw [opening, built, Session.standing_fail, if_pos rfl]
        exact if_neg fatal
      · have apart : name ≠ first.name := by simpa using apart
        rw [Session.standing_fail, if_neg apart]

/-- Functions whose names are new to a session stand in it as they open. -/
theorem insertFunctions_spec {functions : List Func} (nodup : (functions.map Func.name).Nodup)
    {session : Session} (keyed : session.Keyed)
    (fresh : ∀ function ∈ functions, session.standing function.name = (none, none)) :
    (∃ error, insertFunctions functions session = .error error ∧
      ∃ function ∈ functions, opening function = .error error) ∨
    ∃ after, insertFunctions functions session = .ok after ∧ Opened functions session after := by
  induction functions generalizing session with
  | nil => exact .inr ⟨session, rfl, rfl, keyed, by simp, fun _ _ => rfl⟩
  | cons first rest restIH =>
    rw [List.map_cons, List.nodup_cons] at nodup
    have unfailed := (Prod.mk.inj (fresh first (List.mem_cons_self ..))).2
    rcases insertFunctions_cons first rest keyed unfailed with
      ⟨error, failed, isError⟩ | ⟨middle, goesOn, here⟩
    · exact .inl ⟨error, failed, first, List.mem_cons_self .., isError⟩
    · rw [goesOn]
      -- The names of the rest are still new.
      have freshRest : ∀ function ∈ rest, middle.standing function.name = (none, none) := by
        intro function member
        have apart : function.name ≠ first.name := fun same =>
          nodup.1 (same ▸ List.mem_map_of_mem member)
        rw [here.others _ (by simpa using apart)]
        exact fresh function (List.mem_cons_of_mem _ member)
      rcases restIH nodup.2 here.keyed freshRest with
        ⟨error, failed, function, member, isError⟩ | ⟨after, done, opened⟩
      · exact .inl ⟨error, failed, function, List.mem_cons_of_mem _ member, isError⟩
      · exact .inr ⟨after, done, here.cons nodup.1 opened⟩

/-- The functions of a program that links open a session. -/
theorem fares_opening (links : program.checkLinkage = .ok ()) :
    Fares settings program opening (insertFunctions program.functions { settings }) := by
  have nodup := Program.nodup_of_checkLinkage links
  have empty : ∀ name, Session.standing { settings } name = (none, none) := fun _ => rfl
  rcases insertFunctions_spec nodup (fun _ _ found => by cases found) fun function _ =>
      empty function.name with
    ⟨error, failed, function, member, isError⟩ | ⟨after, done, settings_eq, keyed, all, others⟩
  · rw [failed]
    exact ⟨function, member, isError⟩
  · rw [done]
    refine ⟨settings_eq, keyed, fun name function found => ?_, fun name missing => ?_⟩
    · obtain rfl := Program.name_of_find? found
      exact all function (List.mem_of_find?_eq_some found)
    · refine (others name fun member => ?_).trans (empty name)
      obtain ⟨function, inProgram, rfl⟩ := List.mem_map.1 member
      rw [Program.find?_of_mem nodup inProgram] at missing
      cases missing

/-- The optimizer works on one function after the other. -/
theorem runsBy_inTurn (links : program.checkLinkage = .ok ()) :
    RunsBy InTurn settings program (run settings program) := by
  have stage_eq (takesPlace : Bool) (stage : FlowGraph → Except Error (FlowGraph × Log))
      (session : Session) : StageBy InTurn takesPlace stage session
        (if takesPlace then session.applyStage stage else .ok session) := by
    cases takesPlace with
    | true => exact ⟨_, rfl, rfl⟩
    | false => rfl
  have schedule_eq (schedule : Schedule) (session : Session) :
      ScheduleBy InTurn schedule session (session.runSchedule schedule) := by
    unfold ScheduleBy Session.runSchedule
    split
    · rfl
    · exact ⟨_, rfl, rfl⟩
  have fares : Fares settings program opening _ := fares_opening links
  unfold run RunsBy
  rw [links]
  simp only [Attempt.ok_bind]
  cases opened : insertFunctions program.functions { settings } with
  | error error => exact .inl ⟨error, rfl, rfl⟩
  | ok session =>
    rw [opened] at fares
    refine .inr ⟨session, rfl, ?_⟩
    rw [Attempt.ok_bind, runStages_eq, fares.settings_eq]
    -- Each stage is the one of its kind, and the settings are kept to the next.
    have first := stage_eq settings.ssa Ssa.construct session
    have faresFormed := fares_stage sound_inTurn fares
      (named_stageWork fun _ _ _ => Ssa.signature_construct) first
    revert first faresFormed
    cases (if settings.ssa then session.applyStage Ssa.construct else .ok session) with
    | error error => exact fun first _ => .inl ⟨error, first, rfl⟩
    | ok formed =>
      intro first faresFormed
      refine .inr ⟨formed, first, ?_⟩
      rw [Attempt.ok_bind, faresFormed.settings_eq]
      have second := schedule_eq settings.schedule formed
      cases passes : formed.runSchedule settings.schedule with
      | error error => exact .inl ⟨error, passes ▸ second, rfl⟩
      | ok passed =>
        refine .inr ⟨passed, passes ▸ second, ?_⟩
        have third := stage_eq settings.ssa Ssa.destruct passed.2
        rw [Attempt.ok_bind]
        revert third
        cases (if settings.ssa then passed.2.applyStage Ssa.destruct else .ok passed.2) with
        | error error => exact fun third => .inl ⟨error, third, rfl⟩
        | ok done => exact fun third => .inr ⟨done, third, rfl⟩

/-! ## The end -/

/-- Steps that also answer something known about their elements. -/
theorem mapM_map_pair {ε α β γ : Type} {step : α → Except ε β} {other : α → Except ε (β × γ)}
    {known : α → γ} {list : List α}
    (each : ∀ element ∈ list, other element =
      (step element).map fun answer => (answer, known element)) :
    list.mapM other = (list.mapM step).map fun answers => answers.zip (list.map known) := by
  induction list with
  | nil => rfl
  | cons element rest restIH =>
    obtain ⟨here, others⟩ := List.forall_mem_cons.1 each
    rw [List.mapM_cons, List.mapM_cons, restIH others, here]
    cases step element with
    | error error => rfl
    | ok answer => cases rest.mapM step <;> rfl

/-- What becomes of a function is what the session has for it at the end. -/
theorem outcomeOf_eq {session : Session} (stands : Stands settings program (develop settings) session)
    {function : Func} (found : program.find? function.name = some function) :
    outcomeOf settings function =
      (finished session function).map fun code => (code, session.failures.get? function.name) := by
  rw [outcomeOf, stands.each _ function found, Attempt.ok_bind, finished, standing]
  cases session.graphs.get? function.name with
  | none => rfl
  | some graph => cases flat : graph.flatten <;> simp [flat, Except.map]

/-- The failures of a session are those of the functions of the program. -/
theorem failuresOf_eq {session : Session} (nodup : (program.functions.map Func.name).Nodup)
    (stands : Stands settings program fate session) :
    failuresOf (program.functions.map fun function =>
      (function, session.failures.get? function.name)) = session.failures := by
  refine SortedMap.ext fun name => Option.ext fun error => ?_
  rw [get?_failuresOf (by rw [List.map_map]; exact nodup)]
  constructor
  · rintro ⟨function, member, rfl⟩
    obtain ⟨_, _, same⟩ := List.mem_map.1 member
    obtain ⟨rfl, failed⟩ := Prod.mk.inj same
    exact failed
  · intro failed
    cases found : program.find? name with
    | none =>
      have stood := (Prod.mk.inj (stands.others name found)).2
      rw [failed] at stood
      cases stood
    | some function =>
      obtain rfl := Program.name_of_find? found
      exact ⟨function, List.mem_map.2 ⟨function, List.mem_of_find?_eq_some found, by rw [failed]⟩,
        rfl⟩

/-- A session in which all functions stand as they do on their own ends with what they come to. -/
theorem view_closing {session : Session} (nodup : (program.functions.map Func.name).Nodup)
    (stands : Stands settings program (develop settings) session) (rounds : Nat) :
    (closing program rounds session).map Optimized.view = separately settings program := by
  have outcomes : program.functions.mapM (outcomeOf settings) =
      (program.functions.mapM (finished session)).map fun codes =>
        codes.zip (program.functions.map fun function => session.failures.get? function.name) :=
    mapM_map_pair fun function member => outcomeOf_eq stands (Program.find?_of_mem nodup member)
  rw [closing, separately, outcomes]
  cases finishes : program.functions.mapM (finished session) with
  | error error => rfl
  | ok codes =>
    have length_eq : codes.length = program.functions.length :=
      (Attempt.mapM_eq_ok.1 finishes).length_eq.symm
    simp only [Attempt.ok_bind, Except.map, Attempt.pure_eq_ok, Optimized.view]
    rw [List.map_fst_zip (by simp [length_eq]), List.map_snd_zip (by simp [length_eq]),
      ← List.map_prod_left_eq_zip, failuresOf_eq nodup stands]

/-- The stages of a function, one after the other. -/
theorem develop_eq (settings : Settings) (function : Func) : develop settings function =
    ((opening function >>= advance settings.ssa (Session.stageWork Ssa.construct) function) >>=
      advance (!settings.schedule.passes.isEmpty) settings.schedule.run function) >>=
        advance settings.ssa (Session.stageWork Ssa.destruct) function := by
  simp only [develop, bind_assoc]

/-- A fatal error is that of keys. -/
theorem eq_keysExhausted {function : Func} {error : Error}
    (failed : outcomeOf settings function = .error error) : error = .keysExhausted := by
  have ofAdvance {takesPlace : Bool} {work : FlowGraph → Outcome Nat} {standing : Standing}
      (failed : advance takesPlace work function standing = .error error) :
      error = .keysExhausted := by
    cases takesPlace with
    | true => exact Session.eq_keysExhausted failed
    | false => cases failed
  -- One of the stages failed: opening, one of the three that advance, or writing out.
  rcases Attempt.bind_eq_error.1 failed with failed | ⟨standing, _, failed⟩
  · rw [develop_eq] at failed
    rcases Attempt.bind_eq_error.1 failed with failed | ⟨_, _, failed⟩
    · rcases Attempt.bind_eq_error.1 failed with failed | ⟨_, _, failed⟩
      · rcases Attempt.bind_eq_error.1 failed with failed | ⟨_, _, failed⟩
        · unfold opening at failed
          split at failed
          · cases failed
          · split at failed
            · rename_i fatal
              obtain rfl := Except.error.inj failed
              exact Error.isFatal_iff.1 fatal
            · cases failed
        · exact ofAdvance failed
      · exact ofAdvance failed
    · exact ofAdvance failed
  · split at failed
    · rename_i graph _
      rcases graph.flatten_cases with ⟨code, flat⟩ | ⟨flat, _⟩
      · rw [flat] at failed
        cases failed
      · rw [flat] at failed
        exact (Except.error.inj failed).symm
    · cases failed

/-- When a function comes to a fatal error, so do the functions together. -/
theorem separately_eq_error {error : Error}
    (fares : Fares settings program (develop settings) (.error error)) :
    separately settings program = .error error := by
  obtain ⟨function, member, failed⟩ := fares
  have failedToo : outcomeOf settings function = .error error := by
    rw [outcomeOf, failed]
    rfl
  obtain rfl := eq_keysExhausted failedToo
  have all : program.functions.mapM (outcomeOf settings) = .error .keysExhausted :=
    Attempt.mapM_eq_error_of_mem (fun _ _ => eq_keysExhausted) member failedToo
  rw [separately, all]
  rfl

/-- However the work on all functions is done at each stage, the code and the failures are those
of the functions on their own. -/
theorem view_of_runsBy {works : Works} (sound : works.Sound) (links : program.checkLinkage = .ok ())
    {result : Except Error Optimized} (runs : RunsBy works settings program result) :
    result.map Optimized.view = separately settings program := by
  have nodup := Program.nodup_of_checkLinkage links
  have opened : Fares settings program opening _ := fares_opening links
  have develops : develop settings = fun function => ((opening function >>=
      advance settings.ssa (Session.stageWork Ssa.construct) function) >>=
        advance (!settings.schedule.passes.isEmpty) settings.schedule.run function) >>=
          advance settings.ssa (Session.stageWork Ssa.destruct) function :=
    funext (develop_eq settings)
  unfold RunsBy at runs
  rw [links, Attempt.ok_bind] at runs
  -- A fatal error at some stage is one at the end; without one the next stage takes place.
  rcases runs with ⟨error, failed, rfl⟩ | ⟨session, opens, runs⟩
  · rw [← failed] at opened
    refine (separately_eq_error ?_).symm
    rw [develops]
    exact fares_error (fares_error (fares_error opened _) _) _
  rw [← opens] at opened
  rcases runs with ⟨error, failed, rfl⟩ | ⟨formed, forms, runs⟩
  · refine (separately_eq_error ?_).symm
    rw [develops]
    exact fares_error (fares_error (fares_stage sound opened
      (named_stageWork fun _ _ _ => Ssa.signature_construct) failed) _) _
  have faresFormed := fares_stage sound opened
    (named_stageWork fun _ _ _ => Ssa.signature_construct) forms
  rcases runs with ⟨error, failed, rfl⟩ | ⟨passed, passes, runs⟩
  · refine (separately_eq_error ?_).symm
    rw [develops]
    exact fares_error (fares_schedule sound faresFormed failed) _
  have faresPassed := fares_schedule sound faresFormed passes
  rcases runs with ⟨error, failed, rfl⟩ | ⟨done, isDone, rfl⟩
  · refine (separately_eq_error ?_).symm
    rw [develops]
    exact fares_stage sound faresPassed
      (named_stageWork fun _ _ _ => Ssa.signature_destruct) failed
  have faresDone := fares_stage sound faresPassed
    (named_stageWork fun _ _ _ => Ssa.signature_destruct) isDone
  rw [← develops] at faresDone
  exact view_closing nodup faresDone passed.1

/-- If the work on all functions can be done at each stage, a program can be optimized. -/
theorem exists_runsBy {works : Works} (sound : works.Sound)
    (total : ∀ work session, Named work → session.Keyed → ∃ result, works work session result)
    (settings : Settings) {program : Program} (links : program.checkLinkage = .ok ()) :
    ∃ result, RunsBy works settings program result := by
  have exists_stage {session : Session} (keyed : session.Keyed)
      {stage : FlowGraph → Except Error (FlowGraph × Log)} (named : Named (Session.stageWork stage))
      (takesPlace : Bool) : ∃ result, StageBy works takesPlace stage session result := by
    cases takesPlace with
    | true =>
      obtain ⟨worked, isWorked⟩ := total _ session named keyed
      exact ⟨_, worked, isWorked, rfl⟩
    | false => exact ⟨_, rfl⟩
  have exists_schedule {session : Session} (keyed : session.Keyed) (schedule : Schedule) :
      ∃ result, ScheduleBy works schedule session result := by
    unfold ScheduleBy
    split
    · exact ⟨_, rfl⟩
    · obtain ⟨worked, isWorked⟩ := total schedule.run
        (session.report (notes schedule .passStarted Pass.description)) (named_schedule schedule)
        keyed
      exact ⟨_, worked, isWorked, rfl⟩
  -- Every stage keeps what the next one needs of a session: its functions have distinct keys.
  have opened : Fares settings program opening _ := fares_opening links
  unfold RunsBy
  rw [links, Attempt.ok_bind]
  -- An error at any stage is a result as well, so each stage is split by how it ends.
  cases opens : insertFunctions program.functions { settings } with
  | error error => exact ⟨_, .inl ⟨error, rfl, rfl⟩⟩
  | ok session =>
    rw [opens] at opened
    obtain ⟨formed, forms⟩ := exists_stage opened.keyed
      (named_stageWork fun _ _ _ => Ssa.signature_construct) settings.ssa
    cases formed with
    | error error => exact ⟨_, .inr ⟨session, rfl, .inl ⟨error, forms, rfl⟩⟩⟩
    | ok formed =>
      have faresFormed := fares_stage sound opened
        (named_stageWork fun _ _ _ => Ssa.signature_construct) forms
      obtain ⟨passed, passes⟩ := exists_schedule faresFormed.keyed settings.schedule
      cases passed with
      | error error =>
        exact ⟨_, .inr ⟨session, rfl, .inr ⟨formed, forms, .inl ⟨error, passes, rfl⟩⟩⟩⟩
      | ok passed =>
        have faresPassed := fares_schedule sound faresFormed passes
        obtain ⟨done, isDone⟩ := exists_stage faresPassed.keyed
          (named_stageWork fun _ _ _ => Ssa.signature_destruct) settings.ssa
        refine Exists.imp (fun _ sequel =>
          .inr ⟨session, rfl, .inr ⟨formed, forms, .inr ⟨passed, passes, sequel⟩⟩⟩) ?_
        cases done with
        | error error => exact ⟨_, .inl ⟨error, isDone, rfl⟩⟩
        | ok done => exact ⟨_, .inr ⟨done, isDone, rfl⟩⟩

/-! ## What becomes of a function -/

/-- A function stands with a flow graph of some kind, or it failed. -/
def Standing.Has (good : FlowGraph → Prop) (standing : Standing) : Prop :=
  (∃ graph, standing = (some graph, none) ∧ good graph) ∨ ∃ error, standing = (none, some error)

section Kept

variable {good better : FlowGraph → Prop} {function : Func} {standing after : Standing}

/-- A function gets a flow graph, or it fails. -/
theorem has_opening (built : ∀ graph log, FlowGraph.build function = .ok (graph, log) → good graph)
    (opens : opening function = .ok standing) : Standing.Has good standing := by
  unfold opening at opens
  split at opens
  · rename_i graph log isBuilt
    obtain rfl := Except.ok.inj opens
    exact .inl ⟨graph, rfl, built graph log isBuilt⟩
  · split at opens
    · cases opens
    · obtain rfl := Except.ok.inj opens
      exact .inr ⟨_, rfl⟩

/-- Work of a stage that succeeds gives a flow graph of the next kind, and so does no work. -/
theorem Standing.Has.advance (has : Standing.Has good standing) {takesPlace : Bool}
    {work : FlowGraph → Outcome Nat}
    (gives : ∀ graph answer, good graph → (work graph).result = .ok answer →
      better (work graph).graph)
    (stays : ∀ graph, good graph → better graph)
    (advances : Optimizer.advance takesPlace work function standing = .ok after) :
    Standing.Has better after := by
  cases takesPlace with
  | false =>
    obtain rfl := Except.ok.inj advances
    exact has.imp (fun ⟨graph, isStanding, isGood⟩ => ⟨graph, isStanding, stays graph isGood⟩) id
  | true =>
    rcases has with ⟨graph, rfl, isGood⟩ | ⟨error, rfl⟩
    · rw [Optimizer.advance, if_pos rfl, proceed] at advances
      split at advances
      · rename_i answer succeeds
        obtain rfl := Except.ok.inj advances
        exact .inl ⟨_, rfl, gives graph answer isGood succeeds⟩
      · split at advances
        · cases advances
        · obtain rfl := Except.ok.inj advances
          exact .inr ⟨_, rfl⟩
    · obtain rfl := Except.ok.inj advances
      exact .inr ⟨error, rfl⟩

/-- Work of a stage gives what the stage gives. -/
theorem stageWork_gives {stage : FlowGraph → Except Error (FlowGraph × Log)}
    (gives : ∀ graph after log, good graph → stage graph = .ok (after, log) → better after)
    (graph : FlowGraph) (answer : Nat) (isGood : good graph)
    (succeeds : (Session.stageWork stage graph).result = .ok answer) :
    better (Session.stageWork stage graph).graph := by
  unfold Session.stageWork at succeeds ⊢
  split
  · rename_i after log done
    exact gives graph after log isGood done
  · rename_i failed
    rw [failed] at succeeds
    cases succeeds

/-- What becomes of a function: the code of a flow graph of a kind that the last stage leads to from
the kind that the passes keep, which the first stage leads to, or, if it fails, its own. -/
theorem outcomeOf_finished (fresh good better : FlowGraph → Prop)
    (built : ∀ graph log, FlowGraph.build function = .ok (graph, log) → fresh graph)
    (constructs : ∀ graph after log, fresh graph → Ssa.construct graph = .ok (after, log) →
      good after)
    (starts : ∀ graph, fresh graph → good graph)
    (schedules : ∀ graph, good graph → good (settings.schedule.run graph).graph)
    (destructs : ∀ graph after log, good graph → Ssa.destruct graph = .ok (after, log) →
      better after)
    (stays : ∀ graph, good graph → better graph)
    {output : Func} {failure : Option Error}
    (comes : outcomeOf settings function = .ok (output, failure)) :
    (failure = none ∧ ∃ graph, better graph ∧ graph.flatten = .ok output) ∨
      failure ≠ none ∧ output = function := by
  obtain ⟨standing, develops, comes⟩ := Attempt.bind_eq_ok.1 comes
  rw [develop_eq] at develops
  obtain ⟨passed, develops, isDestructed⟩ := Attempt.bind_eq_ok.1 develops
  obtain ⟨formed, develops, isPassed⟩ := Attempt.bind_eq_ok.1 develops
  obtain ⟨opened, opens, isFormed⟩ := Attempt.bind_eq_ok.1 develops
  have has := (((has_opening built opens).advance (stageWork_gives constructs) starts
    isFormed).advance (fun graph _ isGood _ => schedules graph isGood) (fun _ => id)
      isPassed).advance (stageWork_gives destructs) stays isDestructed
  rcases has with ⟨graph, rfl, isGood⟩ | ⟨error, rfl⟩
  · obtain ⟨code, flat, isCode⟩ := Attempt.bind_eq_ok.1 comes
    obtain ⟨rfl, rfl⟩ := Prod.mk.inj (Except.ok.inj isCode)
    exact .inl ⟨rfl, graph, isGood, flat⟩
  · obtain ⟨rfl, rfl⟩ := Prod.mk.inj (Except.ok.inj comes)
    exact .inr ⟨by simp, rfl⟩

/-- What becomes of a function: the code of a flow graph of a kind that the first one is of and that
all stages keep, or, if it fails, its own. -/
theorem outcomeOf_cases (good : FlowGraph → Prop)
    (built : ∀ graph log, FlowGraph.build function = .ok (graph, log) → good graph)
    (constructs : ∀ graph after log, good graph → Ssa.construct graph = .ok (after, log) → good after)
    (schedules : ∀ graph, good graph → good (settings.schedule.run graph).graph)
    (destructs : ∀ graph after log, good graph → Ssa.destruct graph = .ok (after, log) → good after)
    {output : Func} {failure : Option Error}
    (comes : outcomeOf settings function = .ok (output, failure)) :
    (failure = none ∧ ∃ graph, good graph ∧ graph.flatten = .ok output) ∨
      failure ≠ none ∧ output = function :=
  outcomeOf_finished good good good built constructs (fun _ => id) schedules destructs (fun _ => id)
    comes

/-- A function keeps its signature, and all of it when it fails. -/
theorem outcomeOf_spec {output : Func} {failure : Option Error}
    (comes : outcomeOf settings function = .ok (output, failure)) :
    output.signature = function.signature ∧ (failure ≠ none → output = function) := by
  rcases outcomeOf_cases (fun graph => graph.signature = function.signature)
      (fun _ _ => FlowGraph.signature_build)
      (fun _ _ _ same constructed => (Ssa.signature_construct constructed).trans same)
      (fun graph same => (settings.schedule.signature_run graph).trans same)
      (fun _ _ _ same destructed => (Ssa.signature_destruct destructed).trans same) comes with
    ⟨rfl, graph, same, flat⟩ | ⟨failed, rfl⟩
  · exact ⟨(FlowGraph.signature_flatten flat).trans same, fun failed => absurd rfl failed⟩
  · exact ⟨rfl, fun _ => rfl⟩

end Kept

/-- How functions come out of a program that was optimized: in their order, and each as it comes
out on its own. -/
structure Separate (settings : Settings) (program : Program) (optimized : Optimized) : Prop where
  /-- There is a function for each function, in their order. -/
  outputs : List.Forall₂ (fun function output => ∃ failure,
    outcomeOf settings function = .ok (output, failure)) program.functions
      optimized.program.functions
  /-- Failures are those of functions. -/
  failures : ∀ name error, (name, error) ∈ optimized.failures ↔
    ∃ function output, program.find? name = some function ∧
      outcomeOf settings function = .ok (output, some error)

/-- Functions come out of a program as on their own, unless the keys of one are exhausted. -/
theorem manages_separate (settings : Settings) {program : Program}
    (links : program.checkLinkage = .ok ()) :
    Manages (∃ function ∈ program.functions, outcomeOf settings function = .error .keysExhausted)
      (run settings program) (Separate settings program) := by
  have nodup := Program.nodup_of_checkLinkage links
  have view : (run settings program).map Optimized.view = separately settings program :=
    view_of_runsBy sound_inTurn links (runsBy_inTurn links)
  rw [separately] at view
  cases runs : run settings program with
  | error error =>
    rw [runs] at view
    rcases Attempt.bind_eq_error.1 view.symm with failed | ⟨_, _, failed⟩
    · obtain ⟨function, member, failed⟩ := Attempt.exists_of_mapM_eq_error failed
      obtain rfl := eq_keysExhausted failed
      exact .inr ⟨rfl, function, member, failed⟩
    · cases failed
  | ok optimized =>
    rw [runs] at view
    obtain ⟨outcomes, mapped, view⟩ := Attempt.bind_eq_ok.1 view.symm
    obtain ⟨isProgram, isFailures⟩ := Prod.mk.inj (Except.ok.inj view)
    refine .inl ⟨optimized, rfl, ?_, fun name error => ?_⟩
    · rw [show optimized.program.functions = outcomes.map Prod.fst from
        (congrArg Program.functions isProgram).symm, List.forall₂_map_right_iff]
      exact (Attempt.mapM_eq_ok.1 mapped).imp fun function outcome comes => ⟨outcome.2, comes⟩
    · have zipped : (program.functions.zip (outcomes.map Prod.snd)).map Prod.fst =
          program.functions :=
        List.map_fst_zip (by simp [(Attempt.mapM_eq_ok.1 mapped).length_eq])
      have names : (program.functions.zip (outcomes.map Prod.snd)).map (fun fate => fate.1.name) =
          program.functions.map Func.name := by
        rw [← zipped, List.map_map, zipped]
        rfl
      rw [show optimized.failures = _ from isFailures.symm, ← SortedMap.get?_eq_some_iff,
        get?_failuresOf (names ▸ nodup)]
      have fates : List.Forall₂ (fun function failure => ∃ output,
          outcomeOf settings function = .ok (output, failure)) program.functions
            (outcomes.map Prod.snd) :=
        List.forall₂_map_right_iff.2 ((Attempt.mapM_eq_ok.1 mapped).imp
          fun function outcome comes => ⟨outcome.1, comes⟩)
      constructor
      · rintro ⟨function, member, rfl⟩
        obtain ⟨output, comes⟩ := List.forall₂_zip fates member
        exact ⟨function, output, Program.find?_of_mem nodup (List.of_mem_zip member).1, comes⟩
      · rintro ⟨function, output, found, comes⟩
        have member := List.mem_of_find?_eq_some found
        rw [← zipped] at member
        obtain ⟨⟨_, failure⟩, inZip, rfl⟩ := List.mem_map.1 member
        obtain ⟨_, comesToo⟩ := List.forall₂_zip fates inZip
        obtain ⟨_, rfl⟩ := Prod.mk.inj (Except.ok.inj (comes.symm.trans comesToo))
        exact ⟨_, inZip, Program.name_of_find? found⟩

/-! ## Results -/

/-- The signatures of the functions stay, in their order. -/
theorem Separate.signatures {optimized : Optimized}
    (separate : Separate settings program optimized) :
    optimized.program.functions.map Func.signature = program.functions.map Func.signature :=
  map_eq_of_forall₂ separate.outputs fun _ _ ⟨_, comes⟩ => (outcomeOf_spec comes).1

/-- A function has the code that it comes to on its own. -/
theorem Separate.find? {optimized : Optimized} (separate : Separate settings program optimized)
    {name : String} {function : Func} (found : program.find? name = some function) :
    ∃ output failure, outcomeOf settings function = .ok (output, failure) ∧
      optimized.program.find? name = some output := by
  have outputs := separate.outputs
  revert outputs found
  unfold Program.find?
  generalize program.functions = functions
  generalize optimized.program.functions = outputs
  intro found each
  induction each with
  | nil => cases found
  | @cons first output rest more comes _ restIH =>
    obtain ⟨failure, comes⟩ := comes
    have sameName : output.name = first.name :=
      congrArg Signature.name (outcomeOf_spec comes).1
    rw [List.find?_cons] at found ⊢
    rw [sameName]
    split at found
    · obtain rfl := Option.some.inj found
      exact ⟨output, failure, comes, rfl⟩
    · exact restIH found

/-- The keys of a program are exhausted: those of a function on its own are, and there was no room for
what is added if there are no merges. -/
def Exhausts (settings : Settings) (program : Program) : Prop :=
  (∃ function ∈ program.functions, outcomeOf settings function = .error .keysExhausted) ∧
    ((∀ function ∈ program.functions, ∀ instr ∈ function.instrs, instr.isPhi = false) →
      ¬program.LeavesKeys)

/-- What becomes of a function depends on nothing but the settings and the function. Workers, whatever
the order of their turns, come to the code and the failures that work on one function after the
other comes to. The functions keep their order and their signatures, those that fail keep their
code, and every function comes to what it comes to in any other program. -/
theorem run_independent (settings : Settings) {program : Program}
    (links : program.checkLinkage = .ok ()) :
    (∃ result, Interleaved settings program result) ∧
    (∀ parallel result, Interleaved { settings with parallel } program result →
      result.map Optimized.view = (run settings program).map Optimized.view) ∧
    Manages (Exhausts settings program) (run settings program) fun optimized =>
      optimized.program.functions.map Func.signature = program.functions.map Func.signature ∧
      (∀ name error, (name, error) ∈ optimized.failures →
        ∃ function, program.find? name = some function ∧
          optimized.program.find? name = some function) ∧
      ∀ other another, other.checkLinkage = .ok () → run settings other = .ok another →
        ∀ function ∈ program.functions, function ∈ other.functions →
          optimized.program.find? function.name = another.program.find? function.name ∧
          ∀ error, (function.name, error) ∈ optimized.failures ↔
            (function.name, error) ∈ another.failures := by
  refine ⟨?_, fun parallel result interleaved => ?_, ?_⟩
  · exact exists_runsBy sound_makes (fun _ _ named keyed => Workshop.exists_makes named keyed)
      settings links
  · rw [view_of_runsBy sound_makes links interleaved,
      view_of_runsBy sound_inTurn links (runsBy_inTurn links)]
    rfl
  rcases manages_separate settings links with ⟨optimized, done, separate⟩ | ⟨failed, cause⟩
  · refine .inl ⟨optimized, done, separate.signatures, fun name error failed => ?_, ?_⟩
    · obtain ⟨function, output, found, comes⟩ := (separate.failures name error).1 failed
      obtain ⟨code, failure, comesToo, foundToo⟩ := separate.find? found
      obtain ⟨rfl, rfl⟩ := Prod.mk.inj (Except.ok.inj (comesToo.symm.trans comes))
      obtain rfl := (outcomeOf_spec comes).2 (by simp)
      exact ⟨_, found, foundToo⟩
    · intro other another linksToo runs function member memberToo
      have found := Program.find?_of_mem (Program.nodup_of_checkLinkage links) member
      have foundToo := Program.find?_of_mem (Program.nodup_of_checkLinkage linksToo) memberToo
      obtain ⟨_, isAnother, separateToo⟩ | ⟨failed, _⟩ := manages_separate settings linksToo
      · obtain rfl := Except.ok.inj (runs.symm.trans isAnother)
        obtain ⟨output, failure, comes, isCode⟩ := separate.find? found
        obtain ⟨_, _, comesToo, isCodeToo⟩ := separateToo.find? foundToo
        obtain ⟨rfl, rfl⟩ := Prod.mk.inj (Except.ok.inj (comes.symm.trans comesToo))
        refine ⟨isCode.trans isCodeToo.symm, fun error => ?_⟩
        rw [separate.failures, separateToo.failures, found, foundToo]
      · rw [runs] at failed
        cases failed
  · refine .inr ⟨failed, cause, fun unmerged => ?_⟩
    have bounded : Manages (¬program.LeavesKeys) (run settings program) _ :=
      manages_run links unmerged
    rcases bounded with ⟨_, done, _⟩ | ⟨_, few⟩
    · rw [failed] at done
      cases done
    · exact few

/-- A function that cannot be optimized, since it goes to a label that is not there. -/
def goesNowhere : Func where
  name := "stray"
  params := []
  returnType := none
  instrs := [.jmp "nowhere"]
  pos := none

/-- Beside a function that fails, the function that counts is optimized, by workers in any order. -/
theorem run_independent_countUp :
    Program.checkLinkage ⟨[Ssa.countUp, goesNowhere]⟩ = .ok () ∧
    ∃ optimized, run {} ⟨[Ssa.countUp, goesNowhere]⟩ = .ok optimized ∧
      optimized.program.functions.map Func.name = ["count", "stray"] ∧
      (∃ result, Interleaved {} ⟨[Ssa.countUp, goesNowhere]⟩ result) ∧
      ∀ result, Interleaved {} ⟨[Ssa.countUp, goesNowhere]⟩ result →
        result.map Optimized.view = .ok optimized.view := by
  obtain ⟨exists_result, same, manages⟩ :=
    @run_independent {} ⟨[Ssa.countUp, goesNowhere]⟩ rfl
  have room : ¬Exhausts {} ⟨[Ssa.countUp, goesNowhere]⟩ := fun exhausts =>
    exhausts.2 (by decide) (by decide)
  obtain ⟨optimized, done, signatures, _⟩ := manages.exists_answer room
  refine ⟨rfl, optimized, done, ?_, exists_result, fun result interleaved => ?_⟩
  · have names := congrArg (List.map Signature.name) signatures
    rw [List.map_map] at names
    exact names
  · rw [same true result interleaved, done]
    rfl

/-- Without keys workers do not come to an optimized program, in whatever order. -/
theorem not_run_independent : ∃ settings program, program.checkLinkage = .ok () ∧
    ¬∃ optimized, Interleaved settings program (.ok optimized) := by
  refine ⟨{}, ⟨[Ssa.lastKeyWrite]⟩, rfl, ?_⟩
  rintro ⟨optimized, interleaved⟩
  have same := view_of_runsBy sound_makes rfl interleaved
  cases same.trans (show separately {} ⟨[Ssa.lastKeyWrite]⟩ = .error .keysExhausted from rfl)

end Optimizer

end Midend
