import Midend.FlowGraph.Basic
import Midend.Proofs.Semantics.Exec

/-! # Running functions and programs

A function runs through its flat list of instructions, with the label last passed and the one before
it in mind; a flow graph runs from block to block. Runs are bounded by fuel, and what a call yields
is what some amount of fuel suffices for. A program whose functions are replaced by ones that yield
at least as much yields at least as much (`Program.Yields.of_refines`). -/

namespace Midend

/-- The values of parameters at the start of a call; of parameters of one name the last counts. -/
def bindParams (params : List Param) (args : List Value) : Option Env :=
  if params.length = args.length then some (Env.empty.assign ((params.map Param.name).zip args))
  else none

/-- At the start of a call the parameters have values, and nothing else has. -/
theorem isSome_of_bindParams {params : List Param} {args : List Value} {env : Env}
    (bound : bindParams params args = some env) (name : String) :
    (env name).isSome = true ↔ name ∈ params.map Param.name := by
  unfold bindParams at bound
  split at bound
  · rename_i length
    obtain rfl := Option.some.inj bound
    have names_eq : (((params.map Param.name).zip args).map Prod.fst) = params.map Param.name := by
      rw [List.map_fst_zip]
      simp [length]
    constructor
    · intro held
      by_contra absent
      rw [Env.assign_of_notMem (by rwa [names_eq])] at held
      cases held
    · exact fun member => Env.assign_isSome _ (.inl (by rwa [names_eq]))
  · cases bound

/-! ## Functions -/

/-- The instructions from a label on; of several labels of one name the last counts. -/
def seek (label : String) : List Instr → Option (List Instr)
  | [] => none
  | instr :: rest =>
    match seek label rest with
    | some found => some found
    | none => if instr.action = .label label then some (instr :: rest) else none

namespace Func

/-- Runs the remaining instructions of a function, given its whole code, the label last passed and
the one passed before it. Instructions that run out end the function. -/
def runFrom (machine : Machine) (calls : Calls) (code : List Instr) :
    (fuel : Nat) → List Instr → (current previous : Option String) → State → Option Answer
  | 0, _, _, _, _ => none
  | _ + 1, [], _, _, state => some ⟨state.lines, none⟩
  | fuel + 1, instr :: rest, current, previous, state =>
    match instr.action with
    | .label name => runFrom machine calls code fuel rest (some name) current state
    | _ =>
      if instr.isPhi then do
        let env ← Instr.enter ((instr :: rest).takeWhile Instr.isPhi) previous state.env
        runFrom machine calls code fuel ((instr :: rest).dropWhile Instr.isPhi) current previous
          { state with env }
      else do
        match ← instr.exec machine calls state with
        | (state, .next) => runFrom machine calls code fuel rest current previous state
        | (state, .jump label) => do
          runFrom machine calls code fuel (← seek label code) current previous state
        | (state, .halt value) => return ⟨state.lines, value⟩

/-- Calls a function. -/
def call (machine : Machine) (calls : Calls) (function : Func) (fuel : Nat) (args : List Value) :
    Option Answer := do
  let env ← bindParams function.params args
  runFrom machine calls function.instrs fuel function.instrs none none { env }

/-- What a call of a function comes to when it has all the time it needs. -/
def Yields (machine : Machine) (calls : Calls) (function : Func) (args : List Value)
    (answer : Answer) : Prop := ∃ fuel, function.call machine calls fuel args = some answer

/-- A function that yields whatever another one yields, whatever the functions do that it calls. -/
def Refines (machine : Machine) (function other : Func) : Prop :=
  ∀ calls args answer, function.Yields machine calls args answer →
    other.Yields machine calls args answer

end Func

/-! ## Flow graphs -/

namespace FlowGraph

/-- Runs a flow graph from a block on that control reaches from another one. -/
def runFrom (machine : Machine) (calls : Calls) (graph : FlowGraph) :
    (fuel : Nat) → Block → (source : Option String) → State → Option Answer
  | 0, _, _, _ => none
  | fuel + 1, block, source, state => do
    match ← block.exec machine calls source state with
    | (state, .jump label) => do
      graph.runFrom machine calls fuel (← graph.find? label) (some block.name) state
    | (state, .halt value) => return ⟨state.lines, value⟩
    | (_, .next) => none

/-- Calls a flow graph. -/
def call (machine : Machine) (calls : Calls) (graph : FlowGraph) (fuel : Nat) (args : List Value) :
    Option Answer := do
  let env ← bindParams graph.params args
  graph.runFrom machine calls fuel (← graph.blocks.head?) none { env }

/-- What a call of a flow graph comes to when it has all the time it needs. -/
def Yields (machine : Machine) (calls : Calls) (graph : FlowGraph) (args : List Value)
    (answer : Answer) : Prop := ∃ fuel, graph.call machine calls fuel args = some answer

/-- A flow graph that yields whatever another one yields, whatever the functions do that it
calls. -/
def Refines (machine : Machine) (graph other : FlowGraph) : Prop :=
  ∀ calls args answer, graph.Yields machine calls args answer →
    other.Yields machine calls args answer

/-- A flow graph yields what it yields. -/
theorem Refines.refl (machine : Machine) (graph : FlowGraph) : graph.Refines machine graph :=
  fun _ _ _ yields => yields

/-- Refinement may be done in steps. -/
theorem Refines.trans {machine : Machine} {first second third : FlowGraph}
    (left : first.Refines machine second) (right : second.Refines machine third) :
    first.Refines machine third :=
  fun calls args answer yields => right calls args answer (left calls args answer yields)

end FlowGraph

/-! ## Programs -/

namespace Program

/-- Calls a function of a program; fuel bounds both the length of runs and the depth of calls. -/
def call (machine : Machine) (program : Program) :
    (fuel : Nat) → (name : String) → List Value → Option Answer
  | 0, _, _ => none
  | fuel + 1, name, args => do
    let function ← program.find? name
    function.call machine (program.call machine fuel) fuel args

/-- What a call of a function of a program comes to when it has all the time it needs. -/
def Yields (machine : Machine) (program : Program) (name : String) (args : List Value)
    (answer : Answer) : Prop := ∃ fuel, program.call machine fuel name args = some answer

end Program

/-! ## More fuel and more answers -/

namespace Func

variable {machine : Machine} {calls : Calls} {code rest : List Instr} {fuel : Nat} {instr : Instr}
  {current previous : Option String} {state : State}

/-- A run passes a label. -/
theorem runFrom_label {name : String} (isLabel : instr.action = .label name) :
    runFrom machine calls code (fuel + 1) (instr :: rest) current previous state =
      runFrom machine calls code fuel rest (some name) current state := by
  rw [runFrom, isLabel]

/-- A run takes merges that stand together at once. -/
theorem runFrom_phi (isPhi : instr.isPhi = true) :
    runFrom machine calls code (fuel + 1) (instr :: rest) current previous state =
      (Instr.enter ((instr :: rest).takeWhile Instr.isPhi) previous state.env).bind fun env =>
        runFrom machine calls code fuel ((instr :: rest).dropWhile Instr.isPhi) current previous
          { state with env } := by
  rw [runFrom]
  split
  · rename_i isLabel
    simp [Instr.isPhi, isLabel] at isPhi
  · rw [if_pos isPhi]
    rfl

/-- A run of any other instruction. -/
theorem runFrom_plain (notLabel : instr.isLabel = false) (notPhi : instr.isPhi = false) :
    runFrom machine calls code (fuel + 1) (instr :: rest) current previous state =
      (instr.exec machine calls state).bind fun step =>
        match step.2 with
        | .next => runFrom machine calls code fuel rest current previous step.1
        | .jump label => (seek label code).bind fun target =>
          runFrom machine calls code fuel target current previous step.1
        | .halt value => some ⟨step.1.lines, value⟩ := by
  rw [runFrom]
  split
  · rename_i isLabel
    simp [Instr.isLabel, isLabel] at notLabel
  · rw [if_neg (by simp [notPhi])]
    congr 1
    funext step
    obtain ⟨next, control⟩ := step
    cases control <;> rfl

/-- The three kinds of instructions that a run tells apart. -/
theorem label_or_phi_or_plain (instr : Instr) :
    (∃ name, instr.action = .label name) ∨ instr.isPhi = true ∨
      (instr.isLabel = false ∧ instr.isPhi = false) := by
  unfold Instr.isLabel
  split
  · rename_i name isLabel
    exact .inl ⟨name, isLabel⟩
  · cases instr.isPhi
    · exact .inr (.inr ⟨rfl, rfl⟩)
    · exact .inr (.inl rfl)

/-- A run with less fuel, a machine and calls with fewer answers, is a run. -/
theorem runFrom_mono {other : Machine} {more : Calls} {larger : Nat} {answer : Answer}
    (floats : other.floats = machine.floats)
    (applied : ∀ op args value, machine.apply op args = some value →
      other.apply op args = some value)
    (called : ∀ name args answer, calls name args = some answer → more name args = some answer)
    (enough : fuel ≤ larger)
    (ran : runFrom machine calls code fuel rest current previous state = some answer) :
    runFrom other more code larger rest current previous state = some answer := by
  induction fuel generalizing larger rest current previous state with
  | zero => cases ran
  | succ fuel fuelIH =>
    obtain ⟨larger, rfl⟩ : ∃ less, larger = less + 1 := ⟨larger - 1, by omega⟩
    have enough : fuel ≤ larger := by omega
    cases rest with
    | nil => exact ran
    | cons instr rest =>
      rcases label_or_phi_or_plain instr with ⟨name, isLabel⟩ | isPhi | ⟨notLabel, notPhi⟩
      · rw [runFrom_label isLabel] at ran ⊢
        exact fuelIH enough ran
      · rw [runFrom_phi isPhi] at ran ⊢
        obtain ⟨env, entered, ran⟩ := Option.bind_eq_some_iff.1 ran
        exact Option.bind_eq_some_iff.2 ⟨env, entered, fuelIH enough ran⟩
      · rw [runFrom_plain notLabel notPhi] at ran ⊢
        obtain ⟨⟨next, control⟩, first, ran⟩ := Option.bind_eq_some_iff.1 ran
        rw [Instr.exec_mono floats applied called first, Option.bind_some]
        cases control with
        | next => exact fuelIH enough ran
        | jump label =>
          obtain ⟨target, sought, ran⟩ := Option.bind_eq_some_iff.1 ran
          exact Option.bind_eq_some_iff.2 ⟨target, sought, fuelIH enough ran⟩
        | halt value => exact ran

/-- A run with calls that are the limit of an ascending sequence is a run with one of these. -/
theorem runFrom_limit {limit : Calls} (sequence : Nat → Calls) {answer : Answer}
    (ascending : ∀ {less larger}, less ≤ larger → ∀ name args answer,
      sequence less name args = some answer → sequence larger name args = some answer)
    (reached : ∀ name args answer, limit name args = some answer →
      ∃ depth, sequence depth name args = some answer)
    (ran : runFrom machine limit code fuel rest current previous state = some answer) :
    ∃ depth,
      runFrom machine (sequence depth) code fuel rest current previous state = some answer := by
  induction fuel generalizing rest current previous state with
  | zero => cases ran
  | succ fuel fuelIH =>
    cases rest with
    | nil => exact ⟨0, ran⟩
    | cons instr rest =>
      rcases label_or_phi_or_plain instr with ⟨name, isLabel⟩ | isPhi | ⟨notLabel, notPhi⟩
      · simp only [runFrom_label isLabel] at ran ⊢
        exact fuelIH ran
      · simp only [runFrom_phi isPhi] at ran ⊢
        obtain ⟨env, entered, ran⟩ := Option.bind_eq_some_iff.1 ran
        obtain ⟨depth, ran⟩ := fuelIH ran
        exact ⟨depth, Option.bind_eq_some_iff.2 ⟨env, entered, ran⟩⟩
      · simp only [runFrom_plain notLabel notPhi] at ran ⊢
        obtain ⟨⟨next, control⟩, first, ran⟩ := Option.bind_eq_some_iff.1 ran
        obtain ⟨shallow, first⟩ := Instr.exec_limit reached first
        -- The rest of the run needs some depth of calls; the deeper of the two serves both.
        have deeper : ∀ {rest current previous state},
            runFrom machine limit code fuel rest current previous state = some answer →
            ∃ depth, shallow ≤ depth ∧
              runFrom machine (sequence depth) code fuel rest current previous state =
                some answer := by
          intro rest current previous state ran
          obtain ⟨depth, ran⟩ := fuelIH ran
          exact ⟨max shallow depth, Nat.le_max_left .., runFrom_mono rfl (fun _ _ _ same => same)
            (ascending (Nat.le_max_right ..)) (Nat.le_refl _) ran⟩
        have firstAt : ∀ {depth}, shallow ≤ depth →
            instr.exec machine (sequence depth) state = some (next, control) := fun less =>
          Instr.exec_mono rfl (fun _ _ _ same => same) (ascending less) first
        cases control with
        | next =>
          obtain ⟨depth, less, ran⟩ := deeper ran
          exact ⟨depth, Option.bind_eq_some_iff.2 ⟨_, firstAt less, ran⟩⟩
        | jump label =>
          obtain ⟨target, sought, ran⟩ := Option.bind_eq_some_iff.1 ran
          obtain ⟨depth, less, ran⟩ := deeper ran
          exact ⟨depth, Option.bind_eq_some_iff.2
            ⟨_, firstAt less, Option.bind_eq_some_iff.2 ⟨target, sought, ran⟩⟩⟩
        | halt value => exact ⟨shallow, Option.bind_eq_some_iff.2 ⟨_, first, ran⟩⟩

/-- A call with less fuel, a machine and calls with fewer answers, is a call. -/
theorem call_mono {other : Machine} {more : Calls} {function : Func} {larger : Nat}
    {args : List Value} {answer : Answer} (floats : other.floats = machine.floats)
    (applied : ∀ op args value, machine.apply op args = some value →
      other.apply op args = some value)
    (called : ∀ name args answer, calls name args = some answer → more name args = some answer)
    (enough : fuel ≤ larger) (ran : function.call machine calls fuel args = some answer) :
    function.call other more larger args = some answer := by
  obtain ⟨env, bound, ran⟩ := Option.bind_eq_some_iff.1 ran
  exact Option.bind_eq_some_iff.2 ⟨env, bound, runFrom_mono floats applied called enough ran⟩

/-- A function does not yield two answers. -/
theorem Yields.unique {function : Func} {args : List Value} {left right : Answer}
    (yieldsLeft : function.Yields machine calls args left)
    (yieldsRight : function.Yields machine calls args right) : left = right := by
  obtain ⟨fuel, ranLeft⟩ := yieldsLeft
  obtain ⟨larger, ranRight⟩ := yieldsRight
  have upLeft := call_mono rfl (fun _ _ _ same => same) (fun _ _ _ same => same)
    (Nat.le_max_left fuel larger) ranLeft
  have upRight := call_mono rfl (fun _ _ _ same => same) (fun _ _ _ same => same)
    (Nat.le_max_right fuel larger) ranRight
  exact Option.some.inj (upLeft.symm.trans upRight)

end Func

namespace Program

/-- A call with less fuel, and a machine with fewer answers, is a call. -/
theorem call_mono {machine other : Machine} {program : Program} {fuel larger : Nat}
    {name : String} {args : List Value} {answer : Answer}
    (floats : other.floats = machine.floats)
    (applied : ∀ op args value, machine.apply op args = some value →
      other.apply op args = some value)
    (enough : fuel ≤ larger) (ran : program.call machine fuel name args = some answer) :
    program.call other larger name args = some answer := by
  induction fuel generalizing larger name args answer with
  | zero => cases ran
  | succ fuel fuelIH =>
    obtain ⟨larger, rfl⟩ : ∃ less, larger = less + 1 := ⟨larger - 1, by omega⟩
    have enough : fuel ≤ larger := by omega
    obtain ⟨function, found, ran⟩ := Option.bind_eq_some_iff.1 ran
    exact Option.bind_eq_some_iff.2 ⟨function, found,
      Func.call_mono floats applied (fun _ _ _ => fuelIH enough) enough ran⟩

/-- What a program yields on a machine that refuses to compare floating-point numbers, it yields on
one that compares them. -/
theorem Yields.of_refusing {floats : FloatOps} {program : Program} {name : String}
    {args : List Value} {answer : Answer}
    (yields : program.Yields ⟨floats, false⟩ name args answer) :
    program.Yields ⟨floats, true⟩ name args answer := by
  obtain ⟨fuel, ran⟩ := yields
  have floats : (Machine.mk floats true).floats = (Machine.mk floats false).floats := rfl
  exact ⟨fuel, call_mono floats (fun _ _ _ => Machine.apply_of_refusing) (Nat.le_refl _) ran⟩

open Classical in
/-- What a program yields, as calls. -/
noncomputable def limit (machine : Machine) (program : Program) : Calls := fun name args =>
  if yields : ∃ answer, program.Yields machine name args answer then some yields.choose else none

/-- A program does not yield two answers. -/
theorem Yields.unique {machine : Machine} {program : Program} {name : String} {args : List Value}
    {left right : Answer} (yieldsLeft : program.Yields machine name args left)
    (yieldsRight : program.Yields machine name args right) : left = right := by
  obtain ⟨fuel, ranLeft⟩ := yieldsLeft
  obtain ⟨larger, ranRight⟩ := yieldsRight
  have upLeft := call_mono rfl (fun _ _ _ same => same) (Nat.le_max_left fuel larger) ranLeft
  have upRight := call_mono rfl (fun _ _ _ same => same) (Nat.le_max_right fuel larger) ranRight
  exact Option.some.inj (upLeft.symm.trans upRight)

/-- The limit has the answers that the program yields. -/
theorem limit_eq_some_iff {machine : Machine} {program : Program} {name : String}
    {args : List Value} {answer : Answer} :
    program.limit machine name args = some answer ↔
      program.Yields machine name args answer := by
  rw [limit]
  split
  · rename_i yields
    rw [Option.some.injEq]
    constructor
    · rintro rfl
      exact yields.choose_spec
    · exact yields.choose_spec.unique
  · rename_i nothing
    constructor
    · intro impossible
      cases impossible
    · exact fun yields => absurd ⟨answer, yields⟩ nothing

/-- A function of a program yields in it what it yields with the program's own answers. -/
theorem Yields.of_limit {machine : Machine} {program : Program} {name : String}
    {function : Func} {args : List Value} {answer : Answer}
    (found : program.find? name = some function)
    (yields : function.Yields machine (program.limit machine) args answer) :
    program.Yields machine name args answer := by
  obtain ⟨fuel, ran⟩ := yields
  obtain ⟨env, bound, ran⟩ := Option.bind_eq_some_iff.1 ran
  obtain ⟨depth, ran⟩ := Func.runFrom_limit (program.call machine)
    (fun less _ _ _ => call_mono rfl (fun _ _ _ same => same) less)
    (fun _ _ _ => limit_eq_some_iff.1) ran
  refine ⟨max fuel depth + 1, Option.bind_eq_some_iff.2 ⟨function, found,
    Option.bind_eq_some_iff.2 ⟨env, bound, ?_⟩⟩⟩
  exact Func.runFrom_mono rfl (fun _ _ _ same => same)
    (fun _ _ _ => call_mono rfl (fun _ _ _ same => same) (Nat.le_max_right fuel depth))
    (Nat.le_max_left fuel depth) ran

/-- A program whose functions are replaced by ones that refine them yields what it yielded. -/
theorem Yields.of_refines {machine : Machine} {program other : Program} {name : String}
    {args : List Value} {answer : Answer}
    (refines : ∀ name function, program.find? name = some function →
      ∃ better, other.find? name = some better ∧ function.Refines machine better)
    (yields : program.Yields machine name args answer) :
    other.Yields machine name args answer := by
  obtain ⟨fuel, ran⟩ := yields
  induction fuel generalizing name args answer with
  | zero => cases ran
  | succ fuel fuelIH =>
    obtain ⟨function, found, ran⟩ := Option.bind_eq_some_iff.1 ran
    obtain ⟨better, foundBetter, better_refines⟩ := refines name function found
    -- Calls with less fuel have answers that the other program yields.
    have inLimit : function.Yields machine (other.limit machine) args answer :=
      ⟨fuel, Func.call_mono rfl (fun _ _ _ same => same)
        (fun _ _ _ ran => limit_eq_some_iff.2 (fuelIH ran)) (Nat.le_refl _) ran⟩
    exact .of_limit foundBetter (better_refines _ _ _ inLimit)

end Program

end Midend
