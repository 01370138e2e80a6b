import Midend.Proofs.Instr
import Midend.Proofs.Semantics.Run

/-! # What becomes of runs

A run comes to an answer, fails, or never ends. `Func.runFrom` has no answer in the last two cases
alike; here a run goes step by step, and one that has not ended within its fuel is told from one
that failed. Where there is an answer it is that of `Func.runFrom` (`Func.answer?_advance`). Runs
that go alongside come to the same (`Alongside.settles_iff`), and so does a program whose functions
are replaced by ones that come to the same (`Program.comesTo_iff_of_alike`). -/

namespace Midend

/-- What has become of a run so far. -/
inductive Progress where
  /-- It has not ended. -/
  | running
  /-- It failed. -/
  | failed
  /-- It ended with an answer. -/
  | done (answer : Answer)
  deriving DecidableEq, Repr

/-- The answer of a run, if it has one. -/
def Progress.answer? : Progress → Option Answer
  | .done answer => some answer
  | _ => none

/-- What becomes of calls of functions. -/
abbrev Callees := String → List Value → Progress

/-- The calls that have an answer. -/
def Callees.calls (callees : Callees) : Calls := fun name args => (callees name args).answer?

/-- Callees that have come back wherever others have, with the same result. -/
def Callees.Ahead (callees more : Callees) : Prop :=
  ∀ name args, callees name args ≠ .running → more name args = callees name args

/-! ## Steps -/

namespace Instr

/-- The call that an instruction makes: the name of the function and its arguments. -/
def call? (instr : Instr) (state : State) : Option (String × List Value) :=
  if instr.op? = some .call then do
    let values ← state.env.read instr.reads
    let callee ← instr.funcs.head?
    return (callee, values)
  else none

/-- Whether an instruction waits for a call that has not come back. -/
def awaits (callees : Callees) (instr : Instr) (state : State) : Bool :=
  (instr.call? state).any fun call => callees call.1 call.2 = .running

end Instr

namespace Func

/-- Where a flat run stands: the instructions that remain, the label last passed and the one passed
before it, and the state. -/
structure Place where
  /-- The instructions that remain. -/
  rest : List Instr
  /-- The label last passed. -/
  current : Option String := none
  /-- The label passed before it. -/
  previous : Option String := none
  /-- The state. -/
  state : State

/-- The call that a flat run makes at a place. -/
def Place.call? (place : Place) : Option (String × List Value) :=
  place.rest.head?.bind fun instr => instr.call? place.state

/-- Where a flat run goes on after an instruction that is neither a label nor a merge. -/
def goOn (code : List Instr) (place : Place) : State × Control → Place ⊕ Progress
  | (state, .next) => .inl { place with state }
  | (state, .jump label) =>
    match seek label code with
    | some rest => .inl { place with rest, state }
    | none => .inr .failed
  | (state, .halt value) => .inr (.done ⟨state.lines, value⟩)

/-- One step of a flat run: to the next place, or to what becomes of it. -/
def step (machine : Machine) (callees : Callees) (code : List Instr) (place : Place) :
    Place ⊕ Progress :=
  match place.rest with
  | [] => .inr (.done ⟨place.state.lines, none⟩)
  | instr :: rest =>
    match instr.action with
    | .label name => .inl ⟨rest, some name, place.current, place.state⟩
    | _ =>
      if instr.isPhi then
        match Instr.enter (place.rest.takeWhile Instr.isPhi) place.previous place.state.env with
        | some env => .inl { place with
            rest := place.rest.dropWhile Instr.isPhi, state := { place.state with env } }
        | none => .inr .failed
      else if instr.awaits callees place.state then .inr .running
      else
        match instr.exec machine callees.calls place.state with
        | some next => goOn code { place with rest } next
        | none => .inr .failed

/-- What becomes of a flat run within so many steps. -/
def advance (machine : Machine) (callees : Callees) (code : List Instr) :
    Place → (fuel : Nat) → Progress
  | _, 0 => .running
  | place, fuel + 1 =>
    match step machine callees code place with
    | .inl next => advance machine callees code next fuel
    | .inr result => result

/-- What becomes of a call of a function within so many steps. -/
def progress (machine : Machine) (callees : Callees) (function : Func) (args : List Value)
    (fuel : Nat) : Progress :=
  match bindParams function.params args with
  | some env => advance machine callees function.instrs ⟨function.instrs, none, none, { env }⟩ fuel
  | none => .failed

section Call

variable (machine : Machine) (callees : Callees) {function : Func} {args : List Value} {env : Env}

/-- A call with the right number of arguments runs the code from its start. -/
theorem progress_of_bound (bound : bindParams function.params args = some env) :
    function.progress machine callees args =
      advance machine callees function.instrs ⟨function.instrs, none, none, { env }⟩ := by
  funext fuel
  rw [progress, bound]

/-- A call with the wrong number of arguments fails. -/
theorem progress_of_unbound (unbound : bindParams function.params args = none) :
    function.progress machine callees args = fun _ => .failed := by
  funext fuel
  rw [progress, unbound]

end Call

end Func

/-- What becomes of a call of a function of a program; fuel bounds both the length of runs and the
depth of calls. -/
def Program.progress (machine : Machine) (program : Program) :
    (name : String) → List Value → (fuel : Nat) → Progress
  | _, _, 0 => .running
  | name, args, fuel + 1 =>
    match program.find? name with
    | some function =>
      function.progress machine (fun name args => program.progress machine name args fuel) args fuel
    | none => .failed

/-! ## What a step depends on -/

namespace Instr

/-- What an instruction does depends on what becomes of the one call that it makes. -/
theorem exec_congr {machine : Machine} {calls more : Calls} {instr : Instr} {state : State}
    (same : ∀ callee values, instr.call? state = some (callee, values) →
      calls callee values = more callee values) :
    instr.exec machine calls state = instr.exec machine more state := by
  unfold exec
  cases found : state.env.read instr.reads with
  | none => rfl
  | some values =>
    simp only [Option.bind_eq_bind, Option.bind_some]
    congr 1
    -- An operation other than a call does not depend on calls at all.
    have atCallee : ∀ callee, instr.op? = some .call → instr.funcs.head? = some callee →
        calls callee values = more callee values := by
      intro callee isCall isCallee
      refine same callee values ?_
      rw [call?, if_pos isCall, found, isCallee]
      rfl
    unfold op? funcs at atCallee
    cases action : instr.action with
    | const dest ty literal => rfl
    | label name => rfl
    | compute op dest ty operands =>
      rw [action] at atCallee
      simp only [Action.perform, Action.performCompute]
      split
      · cases isCallee : operands.funcs.head? with
        | none => rfl
        | some callee =>
          simp only [Option.bind_eq_bind, Option.bind_some, atCallee callee rfl isCallee]
      all_goals rfl
    | effect op operands =>
      rw [action] at atCallee
      simp only [Action.perform, Action.performEffect]
      split
      case h_5 =>
        cases isCallee : operands.funcs.head? with
        | none => rfl
        | some callee =>
          simp only [Option.bind_eq_bind, Option.bind_some, atCallee callee rfl isCallee]
      all_goals rfl

/-- An instruction that is not a call does not wait for one. -/
theorem awaits_of_op {callees : Callees} {instr : Instr} {state : State}
    (notCall : instr.op? ≠ some .call) : instr.awaits callees state = false := by
  rw [awaits, call?, if_neg notCall]
  rfl

/-- An instruction that waits for a call that does not come back has no result. -/
theorem exec_of_awaits {machine : Machine} {callees : Callees} {instr : Instr} {state : State}
    (awaits : instr.awaits callees state = true) :
    instr.exec machine callees.calls state = none := by
  obtain ⟨⟨callee, values⟩, isCall, running⟩ := (Option.any_eq_true ..).1 awaits
  have noAnswer : callees.calls callee values = none := by
    rw [Callees.calls, of_decide_eq_true running]
    rfl
  obtain ⟨isOp, isCall⟩ := Option.ite_none_right_eq_some.1 isCall
  obtain ⟨values, found, isCall⟩ := Option.bind_eq_some_iff.1 isCall
  obtain ⟨callee, isCallee, isCall⟩ := Option.bind_eq_some_iff.1 isCall
  obtain ⟨rfl, rfl⟩ := Prod.mk.inj (Option.some.inj isCall)
  rw [exec, found]
  unfold op? at isOp
  unfold funcs at isCallee
  cases action : instr.action with
  | const dest ty literal =>
    rw [action] at isOp
    cases isOp
  | label name => rfl
  | compute op dest ty operands =>
    rw [action] at isOp isCallee
    obtain rfl := Option.some.inj isOp
    simp only [Action.operands] at isCallee
    simp [Action.perform, Action.performCompute, isCallee, noAnswer]
  | effect op operands =>
    rw [action] at isOp isCallee
    obtain rfl := Option.some.inj isOp
    simp only [Action.operands] at isCallee
    simp [Action.perform, Action.performEffect, isCallee, noAnswer]

/-- An instruction whose call has come back does the same with other callees, if the call comes back
with the same result. -/
theorem exec_of_back {machine : Machine} {callees more : Callees} {instr : Instr} {state : State}
    (same : ∀ call, instr.call? state = some call → callees call.1 call.2 ≠ .running →
      more call.1 call.2 = callees call.1 call.2)
    (back : instr.awaits callees state = false) :
    instr.awaits more state = false ∧
      instr.exec machine more.calls state = instr.exec machine callees.calls state := by
  rw [awaits, Option.any_eq_false] at back ⊢
  have same : ∀ call, instr.call? state = some call → more call.1 call.2 = callees call.1 call.2 :=
    fun call isCall => same call isCall (of_decide_eq_false (back call isCall))
  refine ⟨fun call isCall => ?_, exec_congr fun callee values isCall => ?_⟩
  · rw [same call isCall]
    exact back call isCall
  · rw [Callees.calls, Callees.calls, same _ isCall]

end Instr

namespace Func

variable {machine : Machine} {callees more : Callees} {code rest : List Instr} {instr : Instr}
  {current previous : Option String} {state : State}

/-- A step passes a label. -/
theorem step_label {name : String} (isLabel : instr.action = .label name) :
    step machine callees code ⟨instr :: rest, current, previous, state⟩ =
      .inl ⟨rest, some name, current, state⟩ := by
  rw [step]
  simp only [isLabel]

/-- A step takes merges that stand together at once. -/
theorem step_phi (isPhi : instr.isPhi = true) :
    step machine callees code ⟨instr :: rest, current, previous, state⟩ =
      match Instr.enter ((instr :: rest).takeWhile Instr.isPhi) previous state.env with
      | some env =>
        .inl ⟨(instr :: rest).dropWhile Instr.isPhi, current, previous, { state with env }⟩
      | none => .inr .failed := by
  rw [step]
  dsimp only
  split
  · rename_i isLabel
    simp [Instr.isPhi, isLabel] at isPhi
  · rw [if_pos isPhi]

/-- A step runs any other instruction. -/
theorem step_plain (notLabel : instr.isLabel = false) (notPhi : instr.isPhi = false) :
    step machine callees code ⟨instr :: rest, current, previous, state⟩ =
      if instr.awaits callees state then .inr .running
      else
        match instr.exec machine callees.calls state with
        | some next => goOn code ⟨rest, current, previous, state⟩ next
        | none => .inr .failed := by
  rw [step]
  dsimp only
  split
  · rename_i isLabel
    simp [Instr.isLabel, isLabel] at notLabel
  · rw [if_neg (by simp [notPhi])]

end Func

/-! ## What runs settle at -/

/-- What a run comes to when it has all the time it needs: from some fuel on, the result is always
the same. -/
def Settles (run : Nat → Progress) (result : Progress) : Prop :=
  ∃ enough, ∀ fuel, enough ≤ fuel → run fuel = result

/-- A run that has ended stays as it is. -/
def Ascends (run : Nat → Progress) : Prop :=
  ∀ ⦃fuel larger⦄, fuel ≤ larger → run fuel ≠ .running → run larger = run fuel

/-- A run does not settle at two results. -/
theorem Settles.unique {run : Nat → Progress} {left right : Progress} (atLeft : Settles run left)
    (atRight : Settles run right) : left = right := by
  obtain ⟨enough, always⟩ := atLeft
  obtain ⟨other, always'⟩ := atRight
  rw [← always _ (Nat.le_max_left enough other), always' _ (Nat.le_max_right enough other)]

/-- A run settles where it gets to in some steps. -/
theorem settles_of_shift {run other : Nat → Progress} {steps : Nat}
    (shifted : ∀ fuel, run (fuel + steps) = other fuel) {result : Progress} :
    Settles run result ↔ Settles other result := by
  constructor
  · rintro ⟨enough, always⟩
    exact ⟨enough, fun fuel larger => by rw [← shifted, always _ (by omega)]⟩
  · rintro ⟨enough, always⟩
    refine ⟨enough + steps, fun fuel larger => ?_⟩
    obtain ⟨less, rfl⟩ : ∃ less, fuel = less + steps := ⟨fuel - steps, by omega⟩
    rw [shifted, always _ (by omega)]

namespace Ascends

variable {run other : Nat → Progress} {result : Progress}

/-- A run settles at a result at which it arrives. -/
theorem settles_iff (ascends : Ascends run) (ended : result ≠ .running) :
    Settles run result ↔ ∃ fuel, run fuel = result := by
  constructor
  · rintro ⟨enough, always⟩
    exact ⟨enough, always enough (Nat.le_refl _)⟩
  · rintro ⟨fuel, rfl⟩
    exact ⟨fuel, fun larger bound => ascends bound ended⟩

/-- A run that never ends has not ended at any time. -/
theorem settles_running_iff (ascends : Ascends run) :
    Settles run .running ↔ ∀ fuel, run fuel = .running := by
  constructor
  · rintro ⟨enough, always⟩ fuel
    by_contra ended
    have := ascends (Nat.le_max_left fuel enough) ended
    rw [always _ (Nat.le_max_right fuel enough)] at this
    exact ended this.symm
  · exact fun always => ⟨0, fun fuel _ => always fuel⟩

/-- Every run comes to an answer, fails, or never ends. -/
theorem exists_settles (ascends : Ascends run) : ∃ result, Settles run result := by
  by_cases never : ∀ fuel, run fuel = .running
  · exact ⟨.running, ascends.settles_running_iff.2 never⟩
  · obtain ⟨fuel, ended⟩ := Classical.not_forall.1 never
    exact ⟨run fuel, (ascends.settles_iff ended).2 ⟨fuel, rfl⟩⟩

/-- A run never ends that arrives only where one does that never ends. -/
theorem settles_running_of_arrives (ascends : Ascends run) (ascends' : Ascends other)
    (arrives : ∀ fuel, other fuel ≠ .running → ∃ less, run less = other fuel)
    (never : Settles run .running) : Settles other .running := by
  rw [ascends.settles_running_iff] at never
  rw [ascends'.settles_running_iff]
  intro fuel
  by_contra arrived
  obtain ⟨less, here⟩ := arrives fuel arrived
  exact arrived (here ▸ never less)

/-- Runs that arrive at the same results settle alike, also where they never end. -/
theorem settles_congr (ascends : Ascends run) (ascends' : Ascends other)
    (same : ∀ result, result ≠ .running →
      ((∃ fuel, run fuel = result) ↔ ∃ fuel, other fuel = result)) :
    Settles run result ↔ Settles other result := by
  by_cases ended : result = .running
  · rw [ended]
    exact ⟨ascends.settles_running_of_arrives ascends' fun fuel arrived =>
        (same _ arrived).2 ⟨fuel, rfl⟩,
      ascends'.settles_running_of_arrives ascends fun fuel arrived =>
        (same _ arrived).1 ⟨fuel, rfl⟩⟩
  · rw [ascends.settles_iff ended, ascends'.settles_iff ended]
    exact same result ended

end Ascends

/-! ## Runs that go alongside -/

/-- Two ways to run between places that are related: both end with one result, or both get to
related places. The number goes down where one of them stands still. -/
def Alongside {Left Right : Type} (run : Left → Nat → Progress) (other : Right → Nat → Progress)
    (related : Nat → Left → Right → Prop) : Prop :=
  ∀ ⦃number left right⦄, related number left right →
    (∃ result steps more, (∀ fuel, run left (fuel + steps) = result) ∧
      ∀ fuel, other right (fuel + more) = result) ∨
    ∃ lower left' right' steps more, related lower left' right' ∧
      (∀ fuel, run left (fuel + steps) = run left' fuel) ∧
      (∀ fuel, other right (fuel + more) = other right' fuel) ∧
      (0 < steps ∨ lower < number) ∧ (0 < more ∨ lower < number)

namespace Alongside

variable {Left Right : Type} {run : Left → Nat → Progress} {other : Right → Nat → Progress}
  {related : Nat → Left → Right → Prop} {number : Nat} {left : Left} {right : Right}

/-- Either of two ways to run may come first. -/
theorem flip (alongside : Alongside run other related) :
    Alongside other run fun number right left => related number left right := by
  intro number right left isRelated
  rcases alongside isRelated with ⟨result, steps, more, ends, endsToo⟩ |
    ⟨lower, left', right', steps, more, isRelated, passes, passesToo, getsOn, getsOnToo⟩
  · exact .inl ⟨result, more, steps, endsToo, ends⟩
  · exact .inr ⟨lower, right', left', more, steps, isRelated, passesToo, passes, getsOnToo, getsOn⟩

/-- Where a run arrives, a run alongside arrives. The induction is on the fuel, and on the number
while no fuel is used. -/
theorem exists_eq (alongside : Alongside run other related)
    (zero : ∀ left, run left 0 = .running) (ascends : ∀ left, Ascends (run left)) {fuel : Nat}
    (isRelated : related number left right) (ended : run left fuel ≠ .running) :
    ∃ more, other right more = run left fuel := by
  induction fuel using Nat.strongRecOn generalizing number left right with
  | ind fuel fuelIH =>
    induction number using Nat.strongRecOn generalizing left right with
    | ind number numberIH =>
      rcases alongside isRelated with ⟨result, steps, more, ends, endsToo⟩ |
        ⟨lower, left', right', steps, more, isRelated, passes, passesToo, getsOn, _⟩
      · refine ⟨0 + more, ?_⟩
        rw [endsToo, ← ends fuel]
        exact ascends left (Nat.le_add_right ..) ended
      · -- There are not more steps than fuel, for the run ended.
        obtain ⟨less, rfl⟩ : ∃ less, fuel = less + steps := by
          refine ⟨fuel - steps, ?_⟩
          by_contra short
          have late := ascends left (by omega : fuel ≤ 0 + steps) ended
          rw [passes, zero] at late
          exact ended late.symm
        rw [passes] at ended ⊢
        obtain ⟨fewer, arrives⟩ : ∃ fewer, other right' fewer = run left' less := by
          rcases Nat.eq_zero_or_pos steps with rfl | positive
          · exact numberIH lower (getsOn.resolve_left (Nat.lt_irrefl 0)) isRelated ended
          · exact fuelIH less (by omega) isRelated ended
        exact ⟨fewer + more, by rw [passesToo, arrives]⟩

/-- Runs that go alongside come to the same. -/
theorem settles_iff (alongside : Alongside run other related)
    (zero : ∀ left, run left 0 = .running) (ascends : ∀ left, Ascends (run left))
    (zero' : ∀ right, other right 0 = .running) (ascends' : ∀ right, Ascends (other right))
    (isRelated : related number left right) {result : Progress} :
    Settles (run left) result ↔ Settles (other right) result := by
  refine (ascends left).settles_congr (ascends' right) fun result ended => ⟨?_, ?_⟩
  · rintro ⟨fuel, rfl⟩
    exact alongside.exists_eq zero ascends isRelated ended
  · rintro ⟨fuel, rfl⟩
    exact alongside.flip.exists_eq zero' ascends' isRelated ended

end Alongside

/-! ## Functions -/

namespace Func

variable {machine : Machine} {callees more : Callees} {code rest : List Instr}
  {place next : Place} {result : Progress}

/-- A step that does not wait for its call is the same with other callees, if the call comes back
with the same result. -/
theorem step_of_back {place : Place}
    (same : ∀ call, place.call? = some call → callees call.1 call.2 ≠ .running →
      more call.1 call.2 = callees call.1 call.2) :
    step machine callees code place = .inr .running ∨
      step machine more code place = step machine callees code place := by
  obtain ⟨rest, current, previous, state⟩ := place
  cases rest with
  | nil => exact .inr rfl
  | cons instr rest =>
    rcases label_or_phi_or_plain instr with ⟨name, isLabel⟩ | isPhi | ⟨notLabel, notPhi⟩
    · exact .inr (by rw [step_label isLabel, step_label isLabel])
    · exact .inr (by rw [step_phi isPhi, step_phi isPhi])
    · rw [step_plain notLabel notPhi, step_plain notLabel notPhi]
      cases awaits : instr.awaits callees state with
      | true => exact .inl rfl
      | false =>
        obtain ⟨back, same⟩ := @Instr.exec_of_back machine _ _ _ _ same awaits
        rw [back, same]
        exact .inr rfl

/-- A run that has ended stays as it is, with more fuel and with callees that are ahead. -/
theorem advance_ahead (ahead : callees.Ahead more) {fuel larger : Nat} (enough : fuel ≤ larger)
    {place : Place} (ended : advance machine callees code place fuel ≠ .running) :
    advance machine more code place larger = advance machine callees code place fuel := by
  induction fuel generalizing larger place with
  | zero => exact absurd rfl ended
  | succ fuel fuelIH =>
    obtain ⟨larger, rfl⟩ : ∃ less, larger = less + 1 := ⟨larger - 1, by omega⟩
    rw [advance] at ended ⊢
    rw [advance]
    rcases @step_of_back machine _ _ code place (fun _ _ back => ahead _ _ back) with waits | same
    · rw [waits] at ended
      exact absurd rfl ended
    · rw [same]
      split
      · rename_i next isNext
        rw [isNext] at ended
        exact fuelIH (by omega) ended
      · rfl

/-- A run that has ended stays as it is. -/
theorem ascends_advance (place : Place) : Ascends (advance machine callees code place) :=
  fun _ _ enough ended => advance_ahead (fun _ _ _ => rfl) enough ended

/-- A run that ends with callees that are the limit of an ascending sequence ends alike with some of
the sequence. -/
theorem advance_limit {limit : Callees} {sequence : Nat → Callees}
    (ascending : ∀ {less larger}, less ≤ larger → (sequence less).Ahead (sequence larger))
    (reached : ∀ name args, limit name args ≠ .running →
      ∃ depth, sequence depth name args = limit name args) {fuel : Nat} {place : Place}
    (ended : advance machine limit code place fuel ≠ .running) :
    ∃ depth, advance machine (sequence depth) code place fuel =
      advance machine limit code place fuel := by
  induction fuel generalizing place with
  | zero => exact absurd rfl ended
  | succ fuel fuelIH =>
    -- The step makes one call at most, which is back at some depth, and at all larger ones.
    obtain ⟨depth, sameStep⟩ : ∃ depth, ∀ deeper, depth ≤ deeper →
        step machine limit code place = .inr .running ∨
          step machine (sequence deeper) code place = step machine limit code place := by
      by_cases ends : ∃ call, place.call? = some call ∧ limit call.1 call.2 ≠ .running
      · obtain ⟨call, isCall, ended⟩ := ends
        obtain ⟨depth, back⟩ := reached _ _ ended
        refine ⟨depth, fun deeper enough => step_of_back fun other isOther _ => ?_⟩
        obtain rfl := Option.some.inj (isCall.symm.trans isOther)
        rw [ascending enough _ _ (by rwa [back]), back]
      · exact ⟨0, fun deeper _ => step_of_back fun call isCall ended =>
          absurd ⟨call, isCall, ended⟩ ends⟩
    rw [advance] at ended ⊢
    have same := fun deeper enough => (sameStep deeper enough).resolve_left fun waits => by
      rw [waits] at ended
      exact ended rfl
    cases isNext : step machine limit code place with
    | inl next =>
      -- The rest of the run ends alike at another depth; at the larger of the two both do.
      rw [isNext] at ended
      obtain ⟨enough, arrives⟩ := fuelIH ended
      refine ⟨max depth enough, ?_⟩
      rw [advance, same _ (Nat.le_max_left ..), isNext]
      dsimp only
      rw [← arrives]
      exact advance_ahead (ascending (Nat.le_max_right ..)) (Nat.le_refl _) (by rwa [arrives])
    | inr result => exact ⟨depth, by rw [advance, same depth (Nat.le_refl _), isNext]⟩

/-- A call that has ended stays as it is, with more fuel and with callees that are ahead. -/
theorem progress_ahead (ahead : callees.Ahead more) {fuel larger : Nat} (enough : fuel ≤ larger)
    {function : Func} {args : List Value}
    (ended : function.progress machine callees args fuel ≠ .running) :
    function.progress machine more args larger = function.progress machine callees args fuel := by
  unfold progress at ended ⊢
  split
  · rename_i env bound
    rw [bound] at ended
    exact advance_ahead ahead enough ended
  · rfl

/-- A call that ends with callees that are the limit of an ascending sequence ends alike with some
of the sequence. -/
theorem progress_limit {limit : Callees} {sequence : Nat → Callees}
    (ascending : ∀ {less larger}, less ≤ larger → (sequence less).Ahead (sequence larger))
    (reached : ∀ name args, limit name args ≠ .running →
      ∃ depth, sequence depth name args = limit name args)
    {function : Func} {args : List Value} {fuel : Nat}
    (ended : function.progress machine limit args fuel ≠ .running) :
    ∃ depth, function.progress machine (sequence depth) args fuel =
      function.progress machine limit args fuel := by
  unfold progress at ended ⊢
  split
  · rename_i env bound
    rw [bound] at ended
    exact advance_limit ascending reached ended
  · exact ⟨0, rfl⟩

/-- A call that has ended stays as it is. -/
theorem ascends_progress (function : Func) (args : List Value) :
    Ascends (function.progress machine callees args) :=
  fun _ _ enough ended => progress_ahead (fun _ _ _ => rfl) enough ended

/-- A run has the answer that it has without telling failure from no end. -/
theorem answer?_advance (fuel : Nat) (place : Place) :
    (advance machine callees code place fuel).answer? =
      runFrom machine callees.calls code fuel place.rest place.current place.previous
        place.state := by
  induction fuel generalizing place with
  | zero => rfl
  | succ fuel fuelIH =>
    obtain ⟨rest, current, previous, state⟩ := place
    rw [advance]
    cases rest with
    | nil => rfl
    | cons instr rest =>
      -- The two ways to run take the same steps, one for each kind of instruction.
      rcases label_or_phi_or_plain instr with ⟨name, isLabel⟩ | isPhi | ⟨notLabel, notPhi⟩
      · rw [step_label isLabel, runFrom_label isLabel]
        exact fuelIH _
      · rw [step_phi isPhi, runFrom_phi isPhi]
        cases Instr.enter ((instr :: rest).takeWhile Instr.isPhi) previous state.env with
        | none => rfl
        | some env => exact fuelIH _
      · rw [step_plain notLabel notPhi, runFrom_plain notLabel notPhi]
        cases awaits : instr.awaits callees state with
        | true =>
          rw [Instr.exec_of_awaits awaits]
          rfl
        | false =>
          rw [if_neg Bool.false_ne_true]
          cases instr.exec machine callees.calls state with
          | none => rfl
          | some next =>
            obtain ⟨after, control⟩ := next
            rw [Option.bind_some]
            cases control with
            | next => exact fuelIH _
            | halt value => rfl
            | jump label =>
              dsimp only [goOn]
              cases seek label code with
              | none => rfl
              | some target => exact fuelIH _

/-- A call has the answer that it has without telling failure from no end. -/
theorem answer?_progress (function : Func) (args : List Value) (fuel : Nat) :
    (function.progress machine callees args fuel).answer? =
      function.call machine callees.calls fuel args := by
  unfold progress call
  cases bindParams function.params args with
  | none => rfl
  | some env => exact answer?_advance fuel _

/-- A step to another place uses one unit of fuel. -/
theorem advance_of_step (stepped : step machine callees code place = .inl next) (fuel : Nat) :
    advance machine callees code place (fuel + 1) = advance machine callees code next fuel := by
  rw [advance, stepped]

/-- A step to a result uses one unit of fuel. -/
theorem advance_of_end (ended : step machine callees code place = .inr result) (fuel : Nat) :
    advance machine callees code place (fuel + 1) = result := by
  rw [advance, ended]

/-- A step of an instruction that waits. -/
theorem step_of_awaits {instr : Instr} {current previous : Option String} {state : State}
    (notLabel : instr.isLabel = false) (notPhi : instr.isPhi = false)
    (awaits : instr.awaits callees state = true) :
    step machine callees code ⟨instr :: rest, current, previous, state⟩ = .inr .running := by
  rw [step_plain notLabel notPhi, awaits, if_pos rfl]

/-- A step of an instruction that fails. -/
theorem step_of_fail {instr : Instr} {current previous : Option String} {state : State}
    (notLabel : instr.isLabel = false) (notPhi : instr.isPhi = false)
    (back : instr.awaits callees state = false)
    (fails : instr.exec machine callees.calls state = none) :
    step machine callees code ⟨instr :: rest, current, previous, state⟩ = .inr .failed := by
  rw [step_plain notLabel notPhi, back, if_neg Bool.false_ne_true, fails]

/-- A step of an instruction that runs. -/
theorem step_of_exec {instr : Instr} {current previous : Option String} {state : State}
    {after : State × Control} (notLabel : instr.isLabel = false) (notPhi : instr.isPhi = false)
    (back : instr.awaits callees state = false)
    (ran : instr.exec machine callees.calls state = some after) :
    step machine callees code ⟨instr :: rest, current, previous, state⟩ =
      goOn code ⟨rest, current, previous, state⟩ after := by
  rw [step_plain notLabel notPhi, back, if_neg Bool.false_ne_true, ran]

/-- A step of an instruction that jumps. -/
theorem step_of_jump {instr : Instr} {label : String} {target : List Instr}
    {current previous : Option String} {state after : State} (notLabel : instr.isLabel = false)
    (notPhi : instr.isPhi = false) (back : instr.awaits callees state = false)
    (ran : instr.exec machine callees.calls state = some (after, .jump label))
    (sought : seek label code = some target) :
    step machine callees code ⟨instr :: rest, current, previous, state⟩ =
      .inl ⟨target, current, previous, after⟩ := by
  rw [step_of_exec notLabel notPhi back ran]
  simp only [goOn, sought]

/-- Runs go alongside over two instructions that wait for the same and run alike, but for where they
lead: either both runs end with one result, or both go on. -/
theorem alongside_of_exec {related : Nat → Place → Place → Prop} {number : Nat}
    {code' rest' : List Instr} {instr instr' : Instr}
    {current previous current' previous' : Option String} {state : State}
    (change : Control → Control) (change_halt : ∀ value, change (.halt value) = .halt value)
    (notLabel : instr.isLabel = false) (notPhi : instr.isPhi = false)
    (notLabel' : instr'.isLabel = false) (notPhi' : instr'.isPhi = false)
    (awaits_eq : instr'.awaits callees state = instr.awaits callees state)
    (exec_eq : instr'.exec machine callees.calls state =
      (instr.exec machine callees.calls state).map fun step => (step.1, change step.2))
    (goOn : ∀ next control, (∀ value, control ≠ .halt value) → instr.awaits callees state = false →
      instr.exec machine callees.calls state = some (next, control) →
      instr'.exec machine callees.calls state = some (next, change control) →
      ∃ lower left right steps more, related lower left right ∧
        (∀ fuel, advance machine callees code ⟨instr :: rest, current, previous, state⟩
          (fuel + steps) = advance machine callees code left fuel) ∧
        (∀ fuel, advance machine callees code' ⟨instr' :: rest', current', previous', state⟩
          (fuel + more) = advance machine callees code' right fuel) ∧
        (0 < steps ∨ lower < number) ∧ (0 < more ∨ lower < number)) :
    (∃ result steps more,
      (∀ fuel, advance machine callees code ⟨instr :: rest, current, previous, state⟩
        (fuel + steps) = result) ∧
      ∀ fuel, advance machine callees code' ⟨instr' :: rest', current', previous', state⟩
        (fuel + more) = result) ∨
    ∃ lower left right steps more, related lower left right ∧
      (∀ fuel, advance machine callees code ⟨instr :: rest, current, previous, state⟩
        (fuel + steps) = advance machine callees code left fuel) ∧
      (∀ fuel, advance machine callees code' ⟨instr' :: rest', current', previous', state⟩
        (fuel + more) = advance machine callees code' right fuel) ∧
      (0 < steps ∨ lower < number) ∧ (0 < more ∨ lower < number) := by
  cases awaits : instr.awaits callees state with
  | true =>
    rw [awaits] at awaits_eq
    exact .inl ⟨.running, 1, 1, advance_of_end (step_of_awaits notLabel notPhi awaits),
      advance_of_end (step_of_awaits notLabel' notPhi' awaits_eq)⟩
  | false =>
    rw [awaits] at awaits_eq
    cases ran : instr.exec machine callees.calls state with
    | none =>
      rw [ran, Option.map_none] at exec_eq
      exact .inl ⟨.failed, 1, 1, advance_of_end (step_of_fail notLabel notPhi awaits ran),
        advance_of_end (step_of_fail notLabel' notPhi' awaits_eq exec_eq)⟩
    | some after =>
      obtain ⟨next, control⟩ := after
      rw [ran, Option.map_some] at exec_eq
      cases control with
      | halt value =>
        rw [change_halt] at exec_eq
        exact .inl ⟨.done ⟨next.lines, value⟩, 1, 1,
          advance_of_end (step_of_exec notLabel notPhi awaits ran),
          advance_of_end (step_of_exec notLabel' notPhi' awaits_eq exec_eq)⟩
      | next => exact .inr (goOn next .next nofun awaits ran exec_eq)
      | jump label => exact .inr (goOn next (.jump label) nofun awaits ran exec_eq)

/-- A step of a jump. -/
theorem step_jmp {instr : Instr} {label : String} {target : List Instr}
    {current previous : Option String} {state : State}
    (action : instr.action = (Instr.jmp label).action) (sought : seek label code = some target) :
    step machine callees code ⟨instr :: rest, current, previous, state⟩ =
      .inl ⟨target, current, previous, state⟩ := by
  obtain ⟨_, _, notLabel, notPhi⟩ := Instr.jmp_spec action
  have back : instr.awaits callees state = false :=
    Instr.awaits_of_op (by rw [Instr.op?, action]; rintro ⟨⟩)
  exact step_of_jump notLabel notPhi back (Instr.exec_of_jmp action state) sought

/-- A step of a return without a value. -/
theorem step_ret {instr : Instr} {current previous : Option String} {state : State}
    (action : instr.action = (Instr.ret none).action) :
    step machine callees code ⟨instr :: rest, current, previous, state⟩ =
      .inr (.done ⟨state.lines, none⟩) := by
  have back : instr.awaits callees state = false :=
    Instr.awaits_of_op (by rw [Instr.op?, action]; rintro ⟨⟩)
  exact step_of_exec (by rw [Instr.isLabel, action]; rfl) (by rw [Instr.isPhi, action]; rfl) back
    (Instr.exec_of_ret action state)

/-- What a call of a function comes to when it has all the time it needs: an answer, a failure, or
no end. -/
def ComesTo (machine : Machine) (callees : Callees) (function : Func) (args : List Value)
    (result : Progress) : Prop := Settles (function.progress machine callees args) result

/-- A function yields the answers that its calls come to. -/
theorem comesTo_done_iff {function : Func} {args : List Value} {answer : Answer} :
    function.ComesTo machine callees args (.done answer) ↔
      function.Yields machine callees.calls args answer := by
  rw [ComesTo, (ascends_progress function args).settles_iff (by simp), Yields]
  refine exists_congr fun fuel => ?_
  rw [← answer?_progress]
  cases function.progress machine callees args fuel <;> simp [Progress.answer?]

/-- Functions that come to the same, whatever the functions come to that they call. -/
def Alike (machine : Machine) (function other : Func) : Prop :=
  ∀ callees args result, function.ComesTo machine callees args result ↔
    other.ComesTo machine callees args result

end Func

/-! ## Programs -/

namespace Program

variable {machine : Machine} {program other : Program} {name : String} {args : List Value}

/-- What becomes of calls of the functions of a program with so much fuel. -/
def callees (machine : Machine) (program : Program) (fuel : Nat) : Callees :=
  fun name args => program.progress machine name args fuel

/-- A call is a call of the function of that name. -/
theorem progress_succ (fuel : Nat) :
    program.progress machine name args (fuel + 1) =
      match program.find? name with
      | some function => function.progress machine (program.callees machine fuel) args fuel
      | none => .failed := rfl

/-- A call that has ended stays as it is. -/
theorem ascends_progress (name : String) (args : List Value) :
    Ascends (program.progress machine name args) := by
  intro fuel larger enough ended
  induction fuel generalizing larger name args with
  | zero => exact absurd rfl ended
  | succ fuel fuelIH =>
    obtain ⟨larger, rfl⟩ : ∃ less, larger = less + 1 := ⟨larger - 1, by omega⟩
    rw [progress_succ] at ended ⊢
    rw [progress_succ]
    split
    · rename_i function found
      rw [found] at ended
      exact Func.progress_ahead (fun name args => fuelIH name args (by omega)) (by omega) ended
    · rfl

/-- More fuel brings calls ahead. -/
theorem callees_ahead {fuel larger : Nat} (enough : fuel ≤ larger) :
    (program.callees machine fuel).Ahead (program.callees machine larger) :=
  fun name args ended => ascends_progress name args enough ended

/-- A call has the answer that it has without telling failure from no end. -/
theorem answer?_progress (name : String) (args : List Value) (fuel : Nat) :
    (program.progress machine name args fuel).answer? = program.call machine fuel name args := by
  induction fuel generalizing name args with
  | zero => rfl
  | succ fuel fuelIH =>
    rw [progress_succ, call]
    cases program.find? name with
    | none => rfl
    | some function =>
      have calls : (program.callees machine fuel).calls = program.call machine fuel := by
        funext name args
        exact fuelIH name args
      dsimp only
      rw [Func.answer?_progress, calls]
      rfl

/-- What a call of a function of a program comes to when it has all the time it needs. -/
def ComesTo (machine : Machine) (program : Program) (name : String) (args : List Value)
    (result : Progress) : Prop := Settles (program.progress machine name args) result

/-- A program yields the answers that its calls come to. -/
theorem comesTo_done_iff {answer : Answer} :
    program.ComesTo machine name args (.done answer) ↔
      program.Yields machine name args answer := by
  rw [ComesTo, (ascends_progress name args).settles_iff (by simp), Yields]
  refine exists_congr fun fuel => ?_
  rw [← answer?_progress]
  cases program.progress machine name args fuel <;> simp [Progress.answer?]

/-- What the calls of a program come to. -/
noncomputable def outcomes (machine : Machine) (program : Program) : Callees := fun name args =>
  (@ascends_progress machine program name args).exists_settles.choose

/-- What a call comes to is the outcome. -/
theorem outcomes_eq_iff {result : Progress} :
    program.outcomes machine name args = result ↔ program.ComesTo machine name args result := by
  have settles := (@ascends_progress machine program name args).exists_settles.choose_spec
  constructor
  · rintro rfl
    exact settles
  · exact settles.unique

/-- Where a call arrives, the call of a program arrives whose functions come to the same. -/
theorem exists_progress_eq (alike : ∀ name,
      Option.Rel (Func.Alike machine) (program.find? name) (other.find? name)) {fuel : Nat}
    (ended : program.progress machine name args fuel ≠ .running) :
    ∃ more, other.progress machine name args more = program.progress machine name args fuel := by
  induction fuel generalizing name args with
  | zero => exact absurd rfl ended
  | succ fuel fuelIH =>
    rw [progress_succ] at ended ⊢
    have atName := alike name
    cases found : program.find? name with
    | none =>
      rw [found] at atName
      cases found' : other.find? name with
      | none => exact ⟨1, by rw [progress_succ, found']⟩
      | some partner =>
        rw [found'] at atName
        cases atName
    | some function =>
      rw [found] at ended atName
      cases found' : other.find? name with
      | none =>
        rw [found'] at atName
        cases atName
      | some partner =>
        rw [found'] at atName
        obtain ⟨alike⟩ := atName
        dsimp only at ended ⊢
        -- What becomes of the calls is behind what they come to in the other program.
        have ahead : (program.callees machine fuel).Ahead (other.outcomes machine) := by
          intro callee values back
          rw [outcomes_eq_iff, ComesTo, (ascends_progress ..).settles_iff back]
          exact fuelIH back
        have same := Func.progress_ahead ahead (Nat.le_refl fuel) ended
        have comesTo : partner.ComesTo machine (other.outcomes machine) args
            (function.progress machine (program.callees machine fuel) args fuel) := by
          rw [← alike, Func.ComesTo, (Func.ascends_progress ..).settles_iff ended]
          exact ⟨fuel, same⟩
        rw [Func.ComesTo, (Func.ascends_progress ..).settles_iff ended] at comesTo
        obtain ⟨enough, arrives⟩ := comesTo
        obtain ⟨depth, atDepth⟩ := Func.progress_limit (fun enough => callees_ahead enough)
          (fun callee values back => ((ascends_progress ..).settles_iff back).1
            (outcomes_eq_iff.1 rfl)) (by rwa [arrives])
        refine ⟨max depth enough + 1, ?_⟩
        rw [progress_succ, found', ← arrives, ← atDepth]
        exact Func.progress_ahead (callees_ahead (Nat.le_max_left ..)) (Nat.le_max_right ..)
          (by rwa [atDepth, arrives])

/-- A program whose functions are replaced by ones that come to the same comes to the same. -/
theorem comesTo_iff_of_alike (alike : ∀ name,
      Option.Rel (Func.Alike machine) (program.find? name) (other.find? name))
    {result : Progress} :
    program.ComesTo machine name args result ↔ other.ComesTo machine name args result := by
  have back : ∀ name,
      Option.Rel (Func.Alike machine) (other.find? name) (program.find? name) := by
    intro name
    have atName := alike name
    generalize program.find? name = found at atName ⊢
    generalize other.find? name = found' at atName ⊢
    cases atName with
    | none => exact .none
    | some alike => exact .some fun callees args result => (alike callees args result).symm
  refine (ascends_progress ..).settles_congr (ascends_progress ..) fun result ended => ⟨?_, ?_⟩
  · rintro ⟨fuel, rfl⟩
    exact exists_progress_eq alike ended
  · rintro ⟨fuel, rfl⟩
    exact exists_progress_eq back ended

/-- A program with a function in the place of another one. -/
def replace (program : Program) (function better : Func) : Program where
  functions := program.functions.map fun other => if other = function then better else other

/-- A function that is replaced by one of the same name is found under it. -/
theorem find?_replace {function better : Func} (name_eq : better.name = function.name)
    (name : String) : (program.replace function better).find? name =
      (program.find? name).map fun other => if other = function then better else other := by
  have names : ∀ other : Func, (if other = function then better else other).name = other.name := by
    intro other
    split
    · rename_i same
      rw [same, name_eq]
    · rfl
  rw [find?, find?, replace, List.find?_map]
  simp only [Function.comp_def, names]

/-- A program with a function replaced by one that comes to the same comes to the same. -/
theorem comesTo_replace_iff {function better : Func} (name_eq : better.name = function.name)
    (alike : better.Alike machine function) {result : Progress} :
    (program.replace function better).ComesTo machine name args result ↔
      program.ComesTo machine name args result := by
  refine comesTo_iff_of_alike fun name => ?_
  rw [find?_replace name_eq]
  cases program.find? name with
  | none => exact .none
  | some other =>
    refine .some ?_
    dsimp only
    split
    · rename_i same
      rw [same]
      exact alike
    · exact fun _ _ _ => Iff.rfl

end Program

end Midend
