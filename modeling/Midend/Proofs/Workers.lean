import Midend.Proofs.Attempt
import Midend.Proofs.Sorted
import Midend.Session

/-! # Workers on a session

Functions are worked on by workers that share a session. A worker takes a flow graph out, works on
it without the others, and then puts the result back or records the failure; in between any other
worker may have a turn. Whatever the order of the turns, each function fares as it would alone
(`Workshop.Consistent`), so the flow graphs and failures of the session are the same at the end, and
the same as if one function was worked on after the other (`Session.Proceeds.unique`). -/

namespace Midend

/-- Only the lack of keys is fatal. -/
theorem Error.isFatal_iff {error : Error} : error.isFatal = true ↔ error = .keysExhausted := by
  unfold Error.isFatal
  split <;> simp_all

/-! ## Standings -/

/-- How the work on a function stands: its flow graph, if it is in the session, and its failure, if
it failed. -/
abbrev Standing := Option FlowGraph × Option Error

namespace Session

/-- How the work on a function stands in a session. -/
def standing (session : Session) (function : String) : Standing :=
  (session.graphs.get? function, session.failures.get? function)

/-- How a function fares when it is worked on alone. -/
def proceed (work : FlowGraph → Outcome Nat) (function : String) : Standing → Except Error Standing
  | (none, failure) => .ok (none, failure)
  | (some graph, failure) =>
    match (work graph).result with
    | .ok _ => .ok (some (work graph).graph, failure)
    | .error error =>
      if error.isFatal then .error error else .ok (none, some (error.inFunction function))

/-- Flow graphs are kept under the names of their functions. -/
def Keyed (session : Session) : Prop :=
  ∀ function graph, session.graphs.get? function = some graph → graph.name = function

/-- Work does not change the name of a function. -/
def Named (work : FlowGraph → Outcome Nat) : Prop := ∀ graph, (work graph).graph.name = graph.name

section Standings

variable (session : Session) (function other : String)

@[simp] theorem standing_report (log : Log) :
    (session.report log).standing other = session.standing other := rfl

/-- Taking a flow graph out leaves the failure and the other functions. -/
theorem standing_take : (session.take function).2.standing other =
    if other = function then (none, session.failures.get? other) else session.standing other := by
  simp only [take, standing, SortedMap.get?_erase_eq]
  split <;> rfl

/-- Putting a flow graph in leaves the failure and the other functions. -/
theorem standing_insert (graph : FlowGraph) : (session.insert graph).standing other =
    if other = graph.name then (some graph, session.failures.get? other)
    else session.standing other := by
  simp only [insert, standing, SortedMap.get?_insert_eq]
  split <;> rfl

/-- A failure leaves the other functions. -/
theorem standing_fail (error : Error) : (session.fail function error).standing other =
    if other = function then (none, some error) else session.standing other := by
  simp only [fail, standing, SortedMap.get?_erase_eq, SortedMap.get?_insert_eq]
  split <;> rfl

end Standings

namespace Keyed

variable {session : Session} (keyed : session.Keyed)

include keyed

/-- Taking a flow graph out keeps the others under their names. -/
theorem take (function : String) : (session.take function).2.Keyed := by
  intro other graph found
  rw [Session.take, SortedMap.get?_erase_eq] at found
  split at found
  · cases found
  · exact keyed other graph found

/-- A flow graph is put in under the name of its function. -/
theorem insert (graph : FlowGraph) : (session.insert graph).Keyed := by
  intro other found isFound
  rw [Session.insert, SortedMap.get?_insert_eq] at isFound
  split at isFound
  · rename_i same
    exact Option.some.inj isFound ▸ same.symm
  · exact keyed other found isFound

/-- A failure takes a flow graph out. -/
theorem fail (function : String) (error : Error) : (session.fail function error).Keyed :=
  keyed.take function

end Keyed

/-- Sessions in which all functions stand alike have the same flow graphs and failures. -/
theorem eq_of_standing {left right : Session}
    (same : ∀ function, left.standing function = right.standing function) :
    left.graphs = right.graphs ∧ left.failures = right.failures :=
  ⟨SortedMap.ext fun function => (Prod.mk.inj (same function)).1,
    SortedMap.ext fun function => (Prod.mk.inj (same function)).2⟩

/-! ## What all functions come to -/

/-- What work on all functions of a session comes to: each function fares as it would alone, and a
fatal error is that of some function. -/
def Proceeds (work : FlowGraph → Outcome Nat) (session : Session) : Except Error Session → Prop
  | .ok after => after.settings = session.settings ∧ after.Keyed ∧
      ∀ function, proceed work function (session.standing function) = .ok (after.standing function)
  | .error error => ∃ function, proceed work function (session.standing function) = .error error

/-- A fatal error is that of keys. -/
theorem eq_keysExhausted {work : FlowGraph → Outcome Nat} {function : String} {standing : Standing}
    {error : Error} (failed : proceed work function standing = .error error) :
    error = .keysExhausted := by
  unfold proceed at failed
  split at failed
  · cases failed
  · split at failed
    · cases failed
    · split at failed
      · rename_i fatal
        obtain rfl := Except.error.inj failed
        exact Error.isFatal_iff.1 fatal
      · cases failed

/-- Work on all functions of a session comes to one thing only. -/
theorem Proceeds.unique {work : FlowGraph → Outcome Nat} {session : Session}
    {left right : Except Error Session} (first : Proceeds work session left)
    (second : Proceeds work session right) :
    left.map (fun after => (after.graphs, after.failures)) =
      right.map (fun after => (after.graphs, after.failures)) := by
  cases left with
  | ok left =>
    obtain ⟨_, _, fares⟩ := first
    cases right with
    | ok right =>
      have same (function : String) : left.standing function = right.standing function :=
        Except.ok.inj ((fares function).symm.trans (second.2.2 function))
      obtain ⟨graphs, failures⟩ := eq_of_standing same
      simp only [Except.map, graphs, failures]
    | error error =>
      obtain ⟨function, failed⟩ := second
      exact absurd ((fares function).symm.trans failed) (by simp)
  | error error =>
    obtain ⟨function, failed⟩ := first
    cases right with
    | ok right => exact absurd (failed.symm.trans (second.2.2 function)) (by simp)
    | error other =>
      obtain ⟨_, failedToo⟩ := second
      rw [eq_keysExhausted failed, eq_keysExhausted failedToo]

/-! ## One function after the other -/

section Sequential

variable {work : FlowGraph → Outcome Nat} (named : Named work)

include named

/-- Work on one function, which fares as it would alone, while the others stand as they stood. -/
theorem workOn_spec {session : Session} (keyed : session.Keyed) (floor : Nat) (function : String) :
    (∃ error, session.workOn work floor function = .error error ∧
      proceed work function (session.standing function) = .error error) ∨
    ∃ answer after, session.workOn work floor function = .ok (answer, after) ∧
      after.settings = session.settings ∧ after.Keyed ∧
      proceed work function (session.standing function) = .ok (after.standing function) ∧
      ∀ other, other ≠ function → after.standing other = session.standing other := by
  unfold workOn
  cases inSession : session.graphs.get? function with
  | none =>
    refine .inr ⟨floor, session, rfl, rfl, keyed, ?_, fun _ _ => rfl⟩
    rw [standing, inSession, proceed]
  | some graph =>
    have isName := keyed function graph inSession
    dsimp only
    rw [standing, inSession, proceed]
    cases result : (work graph).result with
    | ok answer =>
      have kept : (session.report (work graph).log).Keyed := keyed
      refine .inr ⟨_, _, rfl, rfl, kept.insert _, ?_, fun other apart => ?_⟩
      · rw [standing_insert, if_pos ((named graph).trans isName).symm]
        rfl
      · rw [standing_insert, if_neg fun same => apart (same.trans ((named graph).trans isName))]
        rfl
    | error error =>
      dsimp only
      rw [failIn]
      -- Only a fatal error ends the work; after any other one the graph is gone and the failure is
      -- known.
      cases fatal : error.isFatal with
      | true =>
        exact .inl ⟨error, rfl, rfl⟩
      | false =>
        have kept : (session.report (work graph).log).Keyed := keyed
        refine .inr ⟨floor, _, rfl, rfl, kept.fail _ _, ?_, fun other apart => ?_⟩
        · rw [standing_fail, if_pos rfl]
          simp
        · rw [standing_fail, if_neg apart]
          rfl

/-- Work on several functions, one after the other. -/
theorem workOnAll_spec {todo : List String} (nodup : todo.Nodup) {session : Session}
    (keyed : session.Keyed) (floor : Nat) :
    (∃ error, workOnAll work todo floor session = .error error ∧ ∃ function ∈ todo,
      proceed work function (session.standing function) = .error error) ∨
    ∃ answer after, workOnAll work todo floor session = .ok (answer, after) ∧
      after.settings = session.settings ∧ after.Keyed ∧ ∀ function,
        if function ∈ todo then
          proceed work function (session.standing function) = .ok (after.standing function)
        else after.standing function = session.standing function := by
  induction todo generalizing session floor with
  | nil => exact .inr ⟨floor, session, rfl, rfl, keyed, fun function => by simp⟩
  | cons first rest restIH =>
    obtain ⟨absent, nodup⟩ := List.nodup_cons.1 nodup
    rw [workOnAll]
    rcases workOn_spec named keyed floor first with
      ⟨error, failed, fares⟩ | ⟨answer, middle, worked, settings, keyedToo, fares, others⟩
    · exact .inl ⟨error, by rw [failed]; rfl, first, List.mem_cons_self .., fares⟩
    rw [worked, Attempt.ok_bind]
    dsimp only
    rcases restIH nodup keyedToo answer with
      ⟨error, failed, function, member, faresToo⟩ | ⟨last, after, workedToo, settings', keyed', all⟩
    · have apart : function ≠ first := fun same => absent (same ▸ member)
      rw [others function apart] at faresToo
      exact .inl ⟨error, failed, function, List.mem_cons_of_mem _ member, faresToo⟩
    · refine .inr ⟨last, after, workedToo, settings'.trans settings, keyed', fun function => ?_⟩
      have here := all function
      by_cases same : function = first
      · subst same
        rw [if_neg absent] at here
        rw [if_pos (List.mem_cons_self ..), here]
        exact fares
      · rw [← others function same]
        simpa [same] using here

/-- Work on all functions of a session, one after the other. -/
theorem proceeds_workOnAll {session : Session} (keyed : session.Keyed) :
    Proceeds work session ((workOnAll work session.names 0 session).map Prod.snd) := by
  rcases workOnAll_spec named session.graphs.nodup_keys keyed 0 with
    ⟨error, failed, function, _, fares⟩ | ⟨answer, after, worked, settings, keyedToo, all⟩
  · rw [names, failed]
    exact ⟨function, fares⟩
  · rw [names, worked]
    refine ⟨settings, keyedToo, fun function => ?_⟩
    have here := all function
    split at here
    · exact here
    · rename_i absent
      -- a function without a flow graph is passed over
      have missing : session.graphs.get? function = none := by
        cases found : session.graphs.get? function with
        | none => rfl
        | some graph => exact absurd (SortedMap.mem_keys.2 ⟨graph, found⟩) absent
      rw [here, standing, missing, proceed]

end Sequential

end Session

/-! ## Workers that share a session -/

/-- How far a worker is with its function. -/
inductive Worker where
  /-- The flow graph is not taken out yet. -/
  | waiting
  /-- The flow graph is taken out. -/
  | holding (graph : FlowGraph)
  /-- The flow graph was worked on. -/
  | carrying (outcome : Outcome Nat)
  /-- The result is put back, or the failure is recorded, or there was nothing to do. -/
  | done
  /-- A fatal error came up. -/
  | stopped (error : Error)

/-- How many turns a worker has before it at most. -/
def Worker.turnsLeft : Worker → Nat
  | .waiting => 3
  | .holding _ => 2
  | .carrying _ => 1
  | .done | .stopped _ => 0

/-- Workers, one for each function, and the session that they share. -/
structure Workshop where
  /-- The session. -/
  session : Session
  /-- The workers by function. -/
  workers : SortedMap String Worker
  /-- The largest answer so far. -/
  answer : Nat := 0

namespace Workshop

/-- A session with a worker for each function that has a flow graph. -/
def ofSession (session : Session) : Workshop where
  session
  workers := session.graphs.mapValues fun _ _ => .waiting

/-- What a worker does when it has a turn, given the session that it finds; it leaves the session,
how far it got, and an answer if it has one. -/
def act (work : FlowGraph → Outcome Nat) (function : String) (session : Session) :
    Worker → Session × Worker × Option Nat
  | .waiting =>
    match session.take function with
    | (some graph, session) => (session, .holding graph, none)
    | (none, session) => (session, .done, none)
  | .holding graph => (session.report (work graph).log, .carrying (work graph), none)
  | .carrying outcome =>
    match outcome.result with
    | .ok answer => (session.insert outcome.graph, .done, some answer)
    | .error error =>
      match session.failIn function error with
      | .ok session => (session, .done, none)
      | .error error => (session, .stopped error, none)
  | .done => (session, .done, none)
  | .stopped error => (session, .stopped error, none)

/-- The worker for a function has a turn. -/
def turn (work : FlowGraph → Outcome Nat) (shop : Workshop) (function : String) : Workshop :=
  match shop.workers.get? function with
  | none => shop
  | some worker =>
    let (session, worker, answer) := act work function shop.session worker
    { session, workers := shop.workers.insert function worker,
      answer := max shop.answer (answer.getD 0) }

/-- Workers have turns in the given order. -/
def turns (work : FlowGraph → Outcome Nat) (shop : Workshop) (order : List String) : Workshop :=
  order.foldl (turn work) shop

/-- All workers are done. -/
def Finished (shop : Workshop) : Prop :=
  ∀ function worker, shop.workers.get? function = some worker → worker = .done

/-- What workers, in some order of their turns, make of a session: the session when all of them are
done, or the fatal error at which one of them stopped. -/
inductive Makes (work : FlowGraph → Outcome Nat) (session : Session) :
    Except Error (Nat × Session) → Prop where
  /-- All workers are done. -/
  | finish (order : List String) : ((ofSession session).turns work order).Finished →
      Makes work session (.ok (((ofSession session).turns work order).answer,
        ((ofSession session).turns work order).session))
  /-- A worker stopped. -/
  | stop (order : List String) {function : String} {error : Error} :
      ((ofSession session).turns work order).workers.get? function = some (.stopped error) →
      Makes work session (.error error)

/-! ### What holds between turns -/

/-- How far a worker is, in terms of how its function stood and stands. -/
def Agrees (work : FlowGraph → Outcome Nat) (function : String) (stood stands : Standing) :
    Worker → Prop
  | .waiting => stands = stood
  | .holding graph => stood.1 = some graph ∧ stands = (none, stood.2)
  | .carrying outcome => ∃ graph, stood.1 = some graph ∧ outcome = work graph ∧
      stands = (none, stood.2)
  | .done => Session.proceed work function stood = .ok stands
  | .stopped error => Session.proceed work function stood = .error error

/-- Between turns every function stands as its worker left it, and the others as they stood. -/
structure Consistent (work : FlowGraph → Outcome Nat) (start : Session) (shop : Workshop) :
    Prop where
  /-- The settings stay. -/
  settings_eq : shop.session.settings = start.settings
  /-- Flow graphs are kept under the names of their functions. -/
  keyed : shop.session.Keyed
  /-- Functions without a worker stand as they stood. -/
  others : ∀ function, shop.workers.get? function = none →
    shop.session.standing function = start.standing function
  /-- Functions stand as their workers left them. -/
  each : ∀ function worker, shop.workers.get? function = some worker →
    Agrees work function (start.standing function) (shop.session.standing function) worker
  /-- There is a worker for every flow graph. -/
  manned : ∀ function, shop.workers.get? function = none → start.graphs.get? function = none

/-- Workers start consistently. -/
theorem consistent_ofSession (work : FlowGraph → Outcome Nat) {session : Session}
    (keyed : session.Keyed) : Consistent work session (ofSession session) := by
  refine ⟨rfl, keyed, fun _ _ => rfl, fun function worker found => ?_, fun function missing => ?_⟩
  · rw [ofSession, SortedMap.get?_mapValues] at found
    obtain ⟨_, _, rfl⟩ := Option.map_eq_some_iff.1 found
    rfl
  · rw [ofSession, SortedMap.get?_mapValues] at missing
    exact Option.map_eq_none_iff.1 missing

/-- What one turn of a worker comes to, given how its function stood: it concerns that function
only, which then stands as the worker left it. -/
structure Acted (work : FlowGraph → Outcome Nat) (function : String) (stood : Standing)
    (session : Session) (worker : Worker) (next : Session) (moved : Worker) : Prop where
  /-- The settings stay. -/
  settings_eq : next.settings = session.settings
  /-- Flow graphs are kept under the names of their functions. -/
  keyed : next.Keyed
  /-- The other functions stand as they stood. -/
  others : ∀ other, other ≠ function → next.standing other = session.standing other
  /-- The function stands as the worker left it. -/
  agrees : Agrees work function stood (next.standing function) moved
  /-- The worker has one turn less to go. -/
  turnsLeft_le : moved.turnsLeft ≤ worker.turnsLeft - 1

section Turns

variable {work : FlowGraph → Outcome Nat} {function : String} {session : Session} {stood : Standing}

/-- A waiting worker takes its flow graph, or finds that there is none. -/
theorem acted_waiting (isKeyed : session.Keyed) (same : session.standing function = stood) :
    Acted work function stood session .waiting (act work function session .waiting).1
      (act work function session .waiting).2.1 := by
  have erased := isKeyed.take function
  have others (other : String) (apart : other ≠ function) :
      (session.take function).2.standing other = session.standing other := by
    rw [Session.standing_take, if_neg apart]
  have here := session.standing_take function function
  rw [if_pos rfl] at here
  rw [act]
  cases found : session.graphs.get? function with
  | none =>
    have taken : session.take function = (none, (session.take function).2) := by
      rw [Session.take, found]
    rw [taken]
    refine ⟨rfl, erased, others, ?_, Nat.zero_le _⟩
    rw [Agrees, here, ← same, Session.standing, found, Session.proceed]
  | some graph =>
    have taken : session.take function = (some graph, (session.take function).2) := by
      rw [Session.take, found]
    rw [taken]
    refine ⟨rfl, erased, others, ⟨?_, ?_⟩, Nat.le_refl _⟩
    · rw [← same, Session.standing, found]
    · rw [here, ← same, Session.standing]

/-- A worker that carries an answer puts the flow graph back. -/
theorem acted_carrying_ok (isKeyed : session.Keyed) {graph : FlowGraph} {answer : Nat}
    (isName : (work graph).graph.name = function) (isStood : stood.1 = some graph)
    (stands : session.standing function = (none, stood.2))
    (result : (work graph).result = .ok answer) :
    Acted work function stood session (.carrying (work graph))
      (session.insert (work graph).graph) .done := by
  have failures : session.failures.get? function = stood.2 := (Prod.mk.inj stands).2
  have stoodAs : stood = (some graph, stood.2) := by rw [← isStood]
  refine ⟨rfl, isKeyed.insert _, fun other apart => ?_, ?_, Nat.zero_le _⟩
  · rw [Session.standing_insert, if_neg fun same => apart (same.trans isName)]
  · rw [Agrees, Session.standing_insert, if_pos isName.symm, failures, stoodAs, Session.proceed,
      result]

/-- A worker that carries an error that is not fatal leaves it to the session. -/
theorem acted_carrying_error (isKeyed : session.Keyed) {graph : FlowGraph} {error : Error}
    (isStood : stood.1 = some graph) (result : (work graph).result = .error error)
    (notFatal : ¬error.isFatal = true) :
    Acted work function stood session (.carrying (work graph))
      (session.fail function (error.inFunction function)) .done := by
  have stoodAs : stood = (some graph, stood.2) := by rw [← isStood]
  refine ⟨rfl, isKeyed.fail _ _, fun other apart => ?_, ?_, Nat.zero_le _⟩
  · exact (session.standing_fail function other _).trans (if_neg apart)
  · rw [Agrees, Session.standing_fail, if_pos rfl, stoodAs, Session.proceed, result]
    exact if_neg notFatal

/-- A worker that carries a fatal error stops. -/
theorem acted_carrying_fatal (isKeyed : session.Keyed) {graph : FlowGraph} {error : Error}
    (isStood : stood.1 = some graph) (result : (work graph).result = .error error)
    (fatal : error.isFatal = true) :
    Acted work function stood session (.carrying (work graph)) session (.stopped error) := by
  have stoodAs : stood = (some graph, stood.2) := by rw [← isStood]
  refine ⟨rfl, isKeyed, fun _ _ => rfl, ?_, Nat.zero_le _⟩
  rw [Agrees, stoodAs, Session.proceed, result]
  exact if_pos fatal

variable (named : Session.Named work) {start : Session} (keyed : start.Keyed)

include named keyed

/-- What one worker does concerns its function only, which then stands as the worker left it. -/
theorem acted_act (isKeyed : session.Keyed) {worker : Worker}
    (agrees : Agrees work function (start.standing function) (session.standing function) worker) :
    Acted work function (start.standing function) session worker
      (act work function session worker).1 (act work function session worker).2.1 := by
  cases worker with
  | waiting => exact acted_waiting isKeyed agrees
  | holding graph =>
    obtain ⟨stood, stands⟩ := agrees
    exact ⟨rfl, isKeyed, fun _ _ => rfl, ⟨graph, stood, rfl, stands⟩, Nat.le_refl _⟩
  | carrying outcome =>
    obtain ⟨graph, stood, rfl, stands⟩ := agrees
    have isName : (work graph).graph.name = function :=
      (named graph).trans (keyed function graph stood)
    rw [act]
    cases result : (work graph).result with
    | ok answer => exact acted_carrying_ok isKeyed isName stood stands result
    | error error =>
      dsimp only
      by_cases fatal : error.isFatal = true
      · have stops : session.failIn function error = .error error := by
          rw [Session.failIn, if_pos fatal]
        rw [stops]
        exact acted_carrying_fatal isKeyed stood result fatal
      · have fails : session.failIn function error =
            .ok (session.fail function (error.inFunction function)) := by
          rw [Session.failIn, if_neg fatal]
        rw [fails]
        exact acted_carrying_error isKeyed stood result fatal
  | done => exact ⟨rfl, isKeyed, fun _ _ => rfl, agrees, Nat.zero_le _⟩
  | stopped error => exact ⟨rfl, isKeyed, fun _ _ => rfl, agrees, Nat.zero_le _⟩

/-- A turn keeps what holds between turns, and brings its worker on. -/
theorem Consistent.turn {shop : Workshop} (consistent : Consistent work start shop)
    (function : String) : Consistent work start (shop.turn work function) ∧
      ∀ other worker, (shop.turn work function).workers.get? other = some worker →
        ∃ before, shop.workers.get? other = some before ∧
          worker.turnsLeft ≤ before.turnsLeft - if other = function then 1 else 0 := by
  unfold Workshop.turn
  cases found : shop.workers.get? function with
  | none =>
    refine ⟨consistent, fun other worker isFound => ⟨worker, isFound, ?_⟩⟩
    have apart : other ≠ function := by
      rintro rfl
      rw [found] at isFound
      cases isFound
    rw [if_neg apart]
    exact Nat.le_refl _
  | some worker =>
    obtain ⟨settings, isKeyed, others, agrees, fewer⟩ :=
      acted_act named keyed consistent.keyed (consistent.each function worker found)
    -- The worker whose turn it is agrees with the session by its action; the others by what it left
    -- alone.
    refine ⟨⟨settings.trans consistent.settings_eq, isKeyed, fun other missing => ?_,
      fun other next isFound => ?_, fun other missing => ?_⟩, fun other next isFound => ?_⟩
    · rw [SortedMap.get?_insert_eq] at missing
      split at missing
      · cases missing
      · rename_i apart
        exact (others other apart).trans (consistent.others other missing)
    · rw [SortedMap.get?_insert_eq] at isFound
      split at isFound
      · rename_i same
        obtain rfl := Option.some.inj isFound
        exact same ▸ agrees
      · rename_i apart
        have before := consistent.each other next isFound
        rwa [← others other apart] at before
    · rw [SortedMap.get?_insert_eq] at missing
      split at missing
      · cases missing
      · exact consistent.manned other missing
    · rw [SortedMap.get?_insert_eq] at isFound
      split at isFound
      · rename_i same
        obtain rfl := Option.some.inj isFound
        refine ⟨worker, same ▸ found, ?_⟩
        rw [if_pos same]
        exact fewer
      · rename_i apart
        refine ⟨next, isFound, ?_⟩
        rw [if_neg apart]
        exact Nat.le_refl _

/-- Turns keep what holds between turns, and each brings its worker on. -/
theorem Consistent.turns {shop : Workshop} (consistent : Consistent work start shop)
    (order : List String) : Consistent work start (shop.turns work order) ∧
      ∀ other worker, (shop.turns work order).workers.get? other = some worker →
        ∃ before, shop.workers.get? other = some before ∧
          worker.turnsLeft ≤ before.turnsLeft - order.count other := by
  induction order generalizing shop with
  | nil => exact ⟨consistent, fun other worker found => ⟨worker, found, Nat.le_refl _⟩⟩
  | cons function rest restIH =>
    obtain ⟨first, brought⟩ := consistent.turn named keyed function
    obtain ⟨last, broughtOn⟩ := restIH first
    refine ⟨last, fun other worker found => ?_⟩
    obtain ⟨middle, isMiddle, fewer⟩ := broughtOn other worker found
    obtain ⟨before, isBefore, few⟩ := brought other middle isMiddle
    refine ⟨before, isBefore, ?_⟩
    by_cases same : other = function
    · subst same
      rw [if_pos rfl] at few
      rw [List.count_cons_self]
      omega
    · rw [if_neg same] at few
      rw [List.count_cons_of_ne fun isSame => same isSame.symm]
      omega

/-- Workers that are never kept waiting finish, unless one of them stops. -/
theorem Consistent.exists_end {shop : Workshop} (consistent : Consistent work start shop) :
    ∃ more, (shop.turns work more).Finished ∨ ∃ function error,
      (shop.turns work more).workers.get? function = some (.stopped error) := by
  -- three turns are enough for any worker
  refine ⟨shop.workers.keys ++ shop.workers.keys ++ shop.workers.keys, ?_⟩
  obtain ⟨_, brought⟩ := consistent.turns named keyed
    (shop.workers.keys ++ shop.workers.keys ++ shop.workers.keys)
  by_cases stopped : ∃ function error, (shop.turns work
      (shop.workers.keys ++ shop.workers.keys ++ shop.workers.keys)).workers.get? function =
        some (.stopped error)
  · exact .inr stopped
  refine .inl fun function worker found => ?_
  obtain ⟨before, isBefore, few⟩ := brought function worker found
  have once : 1 ≤ shop.workers.keys.count function :=
    List.count_pos_iff.2 (SortedMap.mem_keys.2 ⟨before, isBefore⟩)
  rw [List.count_append, List.count_append] at few
  have most : before.turnsLeft ≤ 3 := by cases before <;> simp [Worker.turnsLeft]
  have none : worker.turnsLeft = 0 := by omega
  cases worker with
  | waiting => cases none
  | holding graph => cases none
  | carrying outcome => cases none
  | done => rfl
  | stopped error => exact absurd ⟨function, error, found⟩ stopped

/-- Workers make something of a session. -/
theorem exists_makes : ∃ result, Makes work start result := by
  obtain ⟨order, finished | ⟨function, error, stopped⟩⟩ :=
    (consistent_ofSession work keyed).exists_end named keyed
  · exact ⟨_, .finish order finished⟩
  · exact ⟨_, .stop order stopped⟩

/-- Whatever the order of turns, workers make of a session what work on one function after the other
makes of it. -/
theorem Makes.proceeds {result : Except Error (Nat × Session)} (makes : Makes work start result) :
    Session.Proceeds work start (result.map Prod.snd) := by
  cases makes with
  | finish order finished =>
    obtain ⟨consistent, _⟩ := (consistent_ofSession work keyed).turns named keyed order
    refine ⟨consistent.settings_eq, consistent.keyed, fun function => ?_⟩
    cases found : ((ofSession start).turns work order).workers.get? function with
    | none =>
      rw [consistent.others function found, Session.standing, consistent.manned function found,
        Session.proceed]
    | some worker =>
      obtain rfl := finished function worker found
      exact consistent.each function .done found
  | stop order stopped =>
    obtain ⟨consistent, _⟩ := (consistent_ofSession work keyed).turns named keyed order
    exact ⟨_, consistent.each _ _ stopped⟩

end Turns

end Workshop

end Midend
