import Midend.FlowGraph.Block
import Midend.Proofs.Semantics.Value
import Mathlib.Data.List.Forall2

/-! # Running instructions

An instruction reads some variables, and what it does depends on their values and not on their
names: `Instr.perform` is a function of the values read, `Instr.exec` reads them and writes the
result. The leading merges of a block are read at once, by the block that control came from. -/

namespace Midend

/-- Looking up several keys is looking up each of them. -/
theorem mapM_eq_some_iff {α β : Type} {step : α → Option β} {list : List α} {found : List β} :
    list.mapM step = some found ↔
      List.Forall₂ (fun element value => step element = some value) list found := by
  induction list generalizing found with
  | nil => simp [eq_comm]
  | cons element rest restIH =>
    rw [List.mapM_cons]
    constructor
    · intro isFound
      obtain ⟨value, atElement, isFound⟩ := Option.bind_eq_some_iff.1 isFound
      obtain ⟨others, atRest, isFound⟩ := Option.bind_eq_some_iff.1 isFound
      obtain rfl := Option.some.inj isFound
      exact .cons atElement (restIH.1 atRest)
    · rintro (_ | ⟨atElement, atRest⟩)
      rw [atElement, Option.bind_eq_bind, Option.bind_some, restIH.2 atRest]
      rfl

/-- Looking up several keys depends only on what is found for each. -/
theorem mapM_congr_left {α β : Type} {step other : α → Option β} {list : List α}
    (same : ∀ element ∈ list, step element = other element) : list.mapM step = list.mapM other := by
  induction list with
  | nil => rfl
  | cons head tail tailIH =>
    rw [List.mapM_cons, List.mapM_cons, same head (List.mem_cons_self ..),
      tailIH fun element member => same element (List.mem_cons_of_mem _ member)]

/-- A list whose elements all have answers has them together. -/
theorem exists_mapM {α β : Type} {step : α → Option β} {list : List α}
    (all : ∀ element ∈ list, ∃ value, step element = some value) :
    ∃ found, list.mapM step = some found := by
  induction list with
  | nil => exact ⟨[], rfl⟩
  | cons head tail tailIH =>
    obtain ⟨value, atHead⟩ := all head (List.mem_cons_self ..)
    obtain ⟨rest, atTail⟩ := tailIH fun element member => all element (List.mem_cons_of_mem _ member)
    exact ⟨value :: rest, by rw [List.mapM_cons, atHead, atTail]; rfl⟩

/-! ## Environments -/

/-- The values of the variables that have one. -/
abbrev Env := String → Option Value

namespace Env

/-- The environment in which no variable has a value. -/
def empty : Env := fun _ => none

/-- Gives a variable a value. -/
def set (env : Env) (name : String) (value : Value) : Env :=
  fun other => if other = name then some value else env other

/-- Gives variables values, one after another. -/
def assign (env : Env) (writes : List (String × Value)) : Env :=
  writes.foldl (fun env write => env.set write.1 write.2) env

/-- The values of several variables, if all of them have one. -/
def read (env : Env) (names : List String) : Option (List Value) := names.mapM env

/-- The variable that was written has its new value. -/
@[simp] theorem set_self (env : Env) (name : String) (value : Value) :
    env.set name value name = some value := if_pos rfl

/-- The other variables keep their values. -/
theorem set_of_ne (env : Env) {name other : String} (value : Value) (apart : other ≠ name) :
    env.set name value other = env other := if_neg apart

/-- A variable once written has a value for good. -/
theorem set_isSome {env : Env} {other : String} (name : String) (value : Value)
    (held : (env other).isSome) : (env.set name value other).isSome := by
  rw [set]
  split
  · rfl
  · exact held

/-- Writing a list of variables starts with the first of them. -/
theorem assign_cons (env : Env) (write : String × Value) (rest : List (String × Value)) :
    env.assign (write :: rest) = (env.set write.1 write.2).assign rest := rfl

/-- Variables that are not written keep their values. -/
theorem assign_of_notMem {writes : List (String × Value)} {name : String}
    (absent : name ∉ writes.map Prod.fst) (env : Env) : env.assign writes name = env name := by
  induction writes generalizing env with
  | nil => rfl
  | cons write rest restIH =>
    rw [List.map_cons, List.mem_cons, not_or] at absent
    rw [assign_cons, restIH absent.2, set_of_ne _ _ absent.1]

/-- Variables that are written once have the value that they are given. -/
theorem assign_of_mem {writes : List (String × Value)} (distinct : (writes.map Prod.fst).Nodup)
    {name : String} {value : Value} (member : (name, value) ∈ writes) (env : Env) :
    env.assign writes name = some value := by
  induction writes generalizing env with
  | nil => cases member
  | cons write rest restIH =>
    rw [List.map_cons, List.nodup_cons] at distinct
    rw [assign_cons]
    rcases List.mem_cons.1 member with rfl | inRest
    · rw [assign_of_notMem distinct.1, set_self]
    · exact restIH distinct.2 inRest _

/-- A variable that is only given the value that it has keeps it. -/
theorem assign_of_held {env : Env} {name : String} {writes : List (String × Value)}
    (held : ∀ write ∈ writes, write.1 = name → env name = some write.2) :
    env.assign writes name = env name := by
  induction writes generalizing env with
  | nil => rfl
  | cons write rest restIH =>
    have same : env.set write.1 write.2 name = env name := by
      unfold set
      split
      · rename_i isName
        exact (held write (List.mem_cons_self ..) isName.symm).symm
      · rfl
    rw [assign_cons, restIH, same]
    rw [same]
    exact fun other member => held other (List.mem_cons_of_mem _ member)

/-- A variable has the value that it is given last. -/
theorem assign_of_last (env : Env) (front : List (String × Value)) {name : String} (value : Value)
    {back : List (String × Value)} (absent : name ∉ back.map Prod.fst) :
    env.assign (front ++ (name, value) :: back) name = some value := by
  induction front generalizing env with
  | nil => rw [List.nil_append, assign_cons, assign_of_notMem absent, set_self]
  | cons write rest restIH => rw [List.cons_append, assign_cons, restIH]

/-- A variable that is written has a value. -/
theorem assign_isSome {writes : List (String × Value)} {name : String} (env : Env)
    (held : name ∈ writes.map Prod.fst ∨ (env name).isSome) :
    (env.assign writes name).isSome := by
  induction writes generalizing env with
  | nil => exact held.resolve_left (by simp)
  | cons write rest restIH =>
    rw [assign_cons]
    apply restIH
    rw [List.map_cons, List.mem_cons] at held
    rcases held with (rfl | inRest) | before
    · exact .inr (by rw [set_self]; rfl)
    · exact .inl inRest
    · exact .inr (set_isSome _ _ before)

/-- Writing the same variables in two environments that agree on a variable keeps them so. -/
theorem assign_congr {left right : Env} {name : String} (agree : left name = right name)
    (writes : List (String × Value)) : left.assign writes name = right.assign writes name := by
  induction writes generalizing left right with
  | nil => exact agree
  | cons write rest restIH =>
    rw [assign_cons, assign_cons]
    apply restIH
    rw [set, set, agree]

/-- Writing the same variables keeps what one environment holds of the other. -/
theorem assign_mono {env other : Env} {name : String} {value : Value}
    {writes : List (String × Value)} (kept : env name = some value → other name = some value)
    (held : env.assign writes name = some value) : other.assign writes name = some value := by
  induction writes generalizing env other with
  | nil => exact kept held
  | cons write rest restIH =>
    rw [assign_cons] at held ⊢
    refine restIH (fun found => ?_) held
    unfold set at found ⊢
    split
    · rename_i same
      rwa [if_pos same] at found
    · rename_i apart
      rw [if_neg apart] at found
      exact kept found

/-- No variable is read without a value. -/
@[simp] theorem read_nil (env : Env) : env.read [] = some [] := rfl

/-- Several variables are read when each of them has its value. -/
theorem read_eq_some_iff {env : Env} {names : List String} {values : List Value} :
    env.read names = some values ↔
      List.Forall₂ (fun name value => env name = some value) names values := mapM_eq_some_iff

/-- Variables under other names are read alike when the other names hold the same values. -/
theorem read_map {env other : Env} {names : List String} {values : List Value}
    {change : String → String}
    (kept : ∀ name ∈ names, ∀ value, env name = some value → other (change name) = some value)
    (found : env.read names = some values) : other.read (names.map change) = some values := by
  rw [read_eq_some_iff] at found ⊢
  rw [List.forall₂_map_left_iff]
  induction found with
  | nil => exact .nil
  | cons atName _ restIH =>
    exact .cons (kept _ (List.mem_cons_self ..) _ atName)
      (restIH fun name member => kept name (List.mem_cons_of_mem _ member))

/-- Variables are read alike in environments that hold the same values for them. -/
theorem read_mono {env other : Env} {names : List String} {values : List Value}
    (kept : ∀ name ∈ names, ∀ value, env name = some value → other name = some value)
    (found : env.read names = some values) : other.read names = some values := by
  simpa using read_map kept found

/-- A variable that is read has a value. -/
theorem exists_of_read {env : Env} {names : List String} {values : List Value}
    (found : env.read names = some values) {name : String} (member : name ∈ names) :
    ∃ value, env name = some value := by
  rw [read_eq_some_iff] at found
  induction found with
  | nil => cases member
  | cons atName _ restIH =>
    rcases List.mem_cons.1 member with rfl | inRest
    · exact ⟨_, atName⟩
    · exact restIH inRest

end Env

/-! ## Single instructions -/

/-- Where a run stands: the values of variables and the lines printed so far. -/
structure State where
  /-- The values of variables. -/
  env : Env
  /-- The lines printed so far, in order. -/
  lines : List String := []

/-- What came of a call: the lines printed and the value returned, if any. -/
structure Answer where
  /-- The lines printed, in order. -/
  lines : List String
  /-- The value returned, if any. -/
  value : Option Value
  deriving DecidableEq, Repr

/-- What calls of functions come to, if anything. -/
abbrev Calls := String → List Value → Option Answer

/-- How a run goes on. -/
inductive Control where
  /-- With the next instruction. -/
  | next
  /-- At a label. -/
  | jump (label : String)
  /-- Not at all: the function returns. -/
  | halt (value : Option Value)
  deriving DecidableEq, Repr

/-- What an instruction does. -/
structure Effect where
  /-- The value for the variable that it writes, if it writes one. -/
  value : Option Value := none
  /-- The lines that it prints. -/
  lines : List String := []
  /-- How the run goes on. -/
  control : Control := .next
  deriving DecidableEq, Repr

namespace Action

/-- The variables that a run reads: as many as the operation uses. -/
def reads (action : Action) : List String :=
  match action with
  | .compute .id _ _ operands => operands.args.take 1
  | .compute .undef _ _ _ => []
  | .effect .jmp _ => []
  | .effect .br operands => operands.args.take 1
  | .effect .ret operands => operands.args.take 1
  | .effect .nop _ => []
  | action => action.operands.args

/-- What an operation that writes a variable does with the values read. -/
def performCompute (machine : Machine) (calls : Calls) (op : Opcode) (operands : Operands)
    (values : List Value) : Option Effect :=
  match op with
  | .call => do
    let callee ← operands.funcs.head?
    let answer ← calls callee values
    let value ← answer.value
    return { value := some value, lines := answer.lines }
  | .id => do
    let value ← values.head?
    return { value := some value }
  | .undef => some { value := some .undef }
  | op => do
    let value ← machine.apply op values
    return { value := some value }

/-- What an operation that writes no variable does with the values read. -/
def performEffect (machine : Machine) (calls : Calls) (op : Opcode) (operands : Operands)
    (values : List Value) : Option Effect :=
  match op with
  | .jmp => operands.labels[0]?.map fun target => { control := .jump target }
  | .br =>
    match values.head? with
    | some (.bool true) => operands.labels[0]?.map fun target => { control := .jump target }
    | some (.bool false) => operands.labels[1]?.map fun target => { control := .jump target }
    | _ => none
  | .ret =>
    match values.head? with
    | some value => if value.isDefined then some { control := .halt (some value) } else none
    | none => some { control := .halt none }
  | .print =>
    if values.all Value.isDefined then
      some { lines := [" ".intercalate (values.map (Value.render machine.floats))] }
    else none
  | .call => do
    let callee ← operands.funcs.head?
    let answer ← calls callee values
    return { lines := answer.lines }
  | .nop => some {}
  | _ => none

/-- What an action does with the values read, unless it fails. -/
def perform (machine : Machine) (calls : Calls) (action : Action) (values : List Value) :
    Option Effect :=
  match action with
  | .const _ _ literal => some { value := some literal.toValue }
  | .compute op _ _ operands => performCompute machine calls op operands values
  | .effect op operands => performEffect machine calls op operands values
  | .label _ => none

end Action

/-- The state after an instruction. -/
def State.after (state : State) (dest : Option String) (effect : Effect) : State where
  env :=
    match dest, effect.value with
    | some dest, some value => state.env.set dest value
    | _, _ => state.env
  lines := state.lines ++ effect.lines

namespace Instr

/-- The variables that a run reads. -/
def reads (instr : Instr) : List String := instr.action.reads

/-- Runs an instruction that is neither a label nor a merge, unless it fails. -/
def exec (machine : Machine) (calls : Calls) (instr : Instr) (state : State) :
    Option (State × Control) := do
  let values ← state.env.read instr.reads
  let effect ← instr.action.perform machine calls values
  return (state.after instr.dest? effect, effect.control)

/-- The variable that a merge writes and the value it selects from a block. -/
def select (source : String) (env : Env) (phi : Instr) : Option (String × Value) := do
  let dest ← phi.dest?
  let arg ← phi.incoming.lookup source
  let value ← env arg
  return (dest, value)

/-- The environment after merges that are reached from a block; all of them read at once. -/
def enter (phis : List Instr) (source : Option String) (env : Env) : Option Env :=
  if phis.isEmpty then some env
  else do
    let writes ← phis.mapM (select (← source) env)
    return env.assign writes

/-- Runs instructions in order, up to the first that does not go on with the next. -/
def execAll (machine : Machine) (calls : Calls) : List Instr → State → Option (State × Control)
  | [], state => some (state, .next)
  | instr :: rest, state => do
    let (state, control) ← instr.exec machine calls state
    if control = .next then execAll machine calls rest state else return (state, control)

end Instr

/-- Runs a block that control reaches from another one. -/
def Block.exec (machine : Machine) (calls : Calls) (block : Block) (source : Option String)
    (state : State) : Option (State × Control) := do
  let env ← Instr.enter block.phis source state.env
  Instr.execAll machine calls block.body { state with env }

/-! ## What a run depends on -/

namespace Action

/-- What an action does depends on neither the names of its arguments nor other names. -/
theorem perform_mapOperands (machine : Machine) (calls : Calls) (action : Action)
    (change : Operands → Operands)
    (kept : ∀ operands, (change operands).funcs = operands.funcs ∧
      (change operands).labels = operands.labels) (values : List Value) :
    (action.mapOperands change).perform machine calls values =
      action.perform machine calls values := by
  cases action with
  | const dest ty value => rfl
  | compute op dest ty operands =>
    simp only [mapOperands, perform, performCompute, (kept operands).1]
  | effect op operands =>
    simp only [mapOperands, perform, performEffect, (kept operands).1, (kept operands).2]
  | label name => rfl

/-- What an action does does not depend on the variable that it writes. -/
theorem perform_mapDest (machine : Machine) (calls : Calls) (action : Action)
    (change : String → String) (values : List Value) :
    (action.mapDest change).perform machine calls values =
      action.perform machine calls values := by
  cases action <;> rfl

/-- An action has a value exactly when it writes a variable. -/
theorem isSome_value {machine : Machine} {calls : Calls} {action : Action} {values : List Value}
    {effect : Effect} (performed : action.perform machine calls values = some effect) :
    effect.value.isSome = action.dest?.isSome := by
  cases action with
  | const dest ty literal =>
    obtain rfl := Option.some.inj performed
    rfl
  | compute op dest ty operands =>
    simp only [perform, performCompute] at performed
    split at performed <;>
      simp only [Option.bind_eq_bind, Option.bind_eq_some_iff, Option.pure_def,
        Option.some.injEq] at performed
    · obtain ⟨_, _, _, _, _, _, rfl⟩ := performed
      rfl
    · obtain ⟨_, _, rfl⟩ := performed
      rfl
    · obtain rfl := performed
      rfl
    · obtain ⟨_, _, rfl⟩ := performed
      rfl
  | effect op operands =>
    have none : effect.value = none := by
      simp only [perform, performEffect] at performed
      split at performed <;> (try split at performed) <;> (try split at performed) <;>
        simp only [Option.bind_eq_bind, Option.bind_eq_some_iff, Option.pure_def,
          Option.map_eq_some_iff, Option.some.injEq, reduceCtorEq] at performed <;> grind
    rw [none]
    rfl
  | label name => cases performed

/-- Only an operation that ends a block does not go on with the next instruction. -/
theorem control_eq_next_iff {machine : Machine} {calls : Calls} {action : Action}
    {values : List Value} {effect : Effect}
    (performed : action.perform machine calls values = some effect) :
    effect.control = .next ↔ ∀ op, action.op? = some op → op.isTerminator = false := by
  cases action with
  | const dest ty literal =>
    obtain rfl := Option.some.inj performed
    simp [op?, Opcode.isTerminator, Opcode.traits]
  | compute op dest ty operands =>
    simp only [perform, performCompute] at performed
    split at performed <;>
      simp only [Option.bind_eq_bind, Option.bind_eq_some_iff, Option.pure_def,
        Option.some.injEq] at performed
    · obtain ⟨_, _, _, _, _, _, rfl⟩ := performed
      simp [op?, Opcode.isTerminator, Opcode.traits]
    · obtain ⟨_, _, rfl⟩ := performed
      simp [op?, Opcode.isTerminator, Opcode.traits]
    · obtain rfl := performed
      simp [op?, Opcode.isTerminator, Opcode.traits]
    · obtain ⟨value, applied, rfl⟩ := performed
      simp [op?, Machine.isTerminator_of_apply applied]
  | effect op operands =>
    simp only [perform, performEffect] at performed
    split at performed <;> (try split at performed) <;> (try split at performed) <;>
      simp only [Option.bind_eq_bind, Option.bind_eq_some_iff, Option.pure_def,
        Option.map_eq_some_iff, Option.some.injEq, reduceCtorEq] at performed <;>
      simp only [op?, Option.some.injEq, forall_eq', Opcode.isTerminator, Opcode.traits] <;> grind
  | label name => cases performed

/-- A machine and calls that have an answer wherever others have one do what the others do. -/
theorem perform_mono {machine other : Machine} {calls more : Calls} {action : Action}
    {values : List Value} {effect : Effect} (floats : other.floats = machine.floats)
    (applied : ∀ op args value, machine.apply op args = some value →
      other.apply op args = some value)
    (called : ∀ name args answer, calls name args = some answer → more name args = some answer)
    (performed : action.perform machine calls values = some effect) :
    action.perform other more values = some effect := by
  cases action with
  | const dest ty literal => exact performed
  | compute op dest ty operands =>
    simp only [perform, performCompute] at performed ⊢
    split at performed <;> simp_all only [Option.bind_eq_bind, Option.bind_eq_some_iff]
    · obtain ⟨callee, isCallee, answer, found, rest⟩ := performed
      exact ⟨callee, isCallee, answer, called _ _ _ found, rest⟩
    · obtain ⟨value, found, rest⟩ := performed
      exact ⟨value, applied _ _ _ found, rest⟩
  | effect op operands =>
    simp only [perform, performEffect, floats] at performed ⊢
    split at performed <;> simp_all only [Option.bind_eq_bind, Option.bind_eq_some_iff]
    obtain ⟨callee, isCallee, answer, found, rest⟩ := performed
    exact ⟨callee, isCallee, answer, called _ _ _ found, rest⟩
  | label name => cases performed

/-- What an action does with calls that are the limit of others it does with one of these. -/
theorem perform_limit {machine : Machine} {limit : Calls} {calls : Nat → Calls} {action : Action}
    {values : List Value} {effect : Effect}
    (reached : ∀ name args answer, limit name args = some answer →
      ∃ fuel, calls fuel name args = some answer)
    (performed : action.perform machine limit values = some effect) :
    ∃ fuel, action.perform machine (calls fuel) values = some effect := by
  cases action with
  | const dest ty literal => exact ⟨0, performed⟩
  | compute op dest ty operands =>
    simp only [perform, performCompute] at performed ⊢
    split at performed <;> simp_all only [Option.bind_eq_bind, Option.bind_eq_some_iff]
    · obtain ⟨callee, isCallee, answer, found, rest⟩ := performed
      obtain ⟨fuel, found⟩ := reached _ _ _ found
      exact ⟨fuel, callee, isCallee, answer, found, rest⟩
    all_goals exact ⟨0, trivial⟩
  | effect op operands =>
    simp only [perform, performEffect] at performed ⊢
    split at performed <;> simp_all only [Option.bind_eq_bind, Option.bind_eq_some_iff]
    case h_5 =>
      obtain ⟨callee, isCallee, answer, found, rest⟩ := performed
      obtain ⟨fuel, found⟩ := reached _ _ _ found
      exact ⟨fuel, callee, isCallee, answer, found, rest⟩
    all_goals exact ⟨0, trivial⟩
  | label name => cases performed

end Action

namespace Instr

/-- Without merges nothing is read. -/
@[simp] theorem enter_nil (source : Option String) (env : Env) : enter [] source env = some env := rfl

/-- Merges that are reached from a block write what they select from it. -/
theorem enter_some (phis : List Instr) (source : String) (env : Env) :
    enter phis (some source) env = (phis.mapM (select source env)).map env.assign := by
  cases phis with
  | nil => rfl
  | cons phi rest =>
    rw [enter, List.isEmpty_cons, if_neg Bool.false_ne_true, Option.map_eq_bind]
    rfl

/-- Merges whose selections are known one by one. -/
theorem mapM_eq_some_of_forall₂ {α β γ : Type} {step : β → Option γ} {answer : α → γ}
    {left : List α} {right : List β}
    (found : List.Forall₂ (fun first second => step second = some (answer first)) left right) :
    right.mapM step = some (left.map answer) := by
  induction found with
  | nil => rfl
  | cons head _ tailIH =>
    rw [List.mapM_cons, head, tailIH]
    rfl

/-- A run of an instruction, in parts: what it reads, what it does, and the state afterwards. -/
theorem exec_eq_some_iff {machine : Machine} {calls : Calls} {instr : Instr} {state next : State}
    {control : Control} :
    instr.exec machine calls state = some (next, control) ↔
      ∃ values effect, state.env.read instr.reads = some values ∧
        instr.action.perform machine calls values = some effect ∧
          state.after instr.dest? effect = next ∧ effect.control = control := by
  simp only [exec, Option.bind_eq_bind, Option.bind_eq_some_iff, Option.pure_def,
    Option.some.injEq, Prod.mk.injEq, exists_and_left]

/-- An instruction that reads other names for its arguments and writes another variable, where the
other names hold the same values, does the same. -/
theorem exec_of_perform_eq {machine : Machine} {calls : Calls} {instr : Instr} (other : Instr)
    {state next : State} (env : Env) {control : Control}
    (ran : instr.exec machine calls state = some (next, control))
    (performs : ∀ values, other.action.perform machine calls values =
      instr.action.perform machine calls values)
    (reads : ∀ values, state.env.read instr.reads = some values →
      env.read other.reads = some values) :
    ∃ effect : Effect, next = state.after instr.dest? effect ∧ effect.control = control ∧
      effect.value.isSome = instr.dest?.isSome ∧
      other.exec machine calls { state with env } =
        some (({ state with env } : State).after other.dest? effect, control) := by
  obtain ⟨values, effect, found, performed, rfl, rfl⟩ := exec_eq_some_iff.1 ran
  refine ⟨effect, rfl, rfl, Action.isSome_value performed, ?_⟩
  exact exec_eq_some_iff.2
    ⟨values, effect, reads values found, by rw [performs, performed], rfl, rfl⟩

/-- A jump changes nothing. -/
theorem exec_of_jmp {machine : Machine} {calls : Calls} {instr : Instr} {target : String}
    (action : instr.action = (jmp target).action) (state : State) :
    instr.exec machine calls state = some (state, .jump target) := by
  rw [exec, reads, dest?, action]
  simp [jmp, effect, Action.reads, Action.perform, Action.performEffect, State.after, Action.dest?]

/-- A return without a value changes nothing. -/
theorem exec_of_ret {machine : Machine} {calls : Calls} {instr : Instr}
    (action : instr.action = (ret none).action) (state : State) :
    instr.exec machine calls state = some (state, .halt none) := by
  rw [exec, reads, dest?, action]
  simp [ret, effect, Action.reads, Action.perform, Action.performEffect, State.after, Action.dest?]

/-- Running instructions starts with the first of them. -/
theorem execAll_cons (machine : Machine) (calls : Calls) (instr : Instr) (rest : List Instr)
    (state : State) :
    execAll machine calls (instr :: rest) state =
      (instr.exec machine calls state).bind fun step =>
        if step.2 = .next then execAll machine calls rest step.1 else some step := rfl

/-- Instructions run to their end if the first of them goes on and the others run to their end. -/
theorem execAll_cons_next_iff {machine : Machine} {calls : Calls} {instr : Instr} {rest : List Instr}
    {state next : State} :
    execAll machine calls (instr :: rest) state = some (next, .next) ↔
      ∃ middle, instr.exec machine calls state = some (middle, .next) ∧
        execAll machine calls rest middle = some (next, .next) := by
  rw [execAll_cons, Option.bind_eq_some_iff]
  constructor
  · rintro ⟨⟨middle, control⟩, first, others⟩
    dsimp only at others
    split at others
    · rename_i goesOn
      exact ⟨middle, goesOn ▸ first, others⟩
    · rename_i stops
      exact absurd (Prod.mk.inj (Option.some.inj others)).2 stops
  · rintro ⟨middle, first, others⟩
    exact ⟨(middle, .next), first, by rw [if_pos rfl, others]⟩

/-- Running two lists of instructions is running the second where the first goes on. -/
theorem execAll_append (machine : Machine) (calls : Calls) (left right : List Instr)
    (state : State) :
    execAll machine calls (left ++ right) state =
      (execAll machine calls left state).bind fun step =>
        if step.2 = .next then execAll machine calls right step.1 else some step := by
  induction left generalizing state with
  | nil => simp [execAll]
  | cons instr rest restIH =>
    rw [List.cons_append, execAll_cons, execAll_cons, Option.bind_assoc]
    congr 1
    funext step
    by_cases goesOn : step.2 = .next
    · simp only [goesOn, if_true]
      exact restIH step.1
    · simp [goesOn]

/-- An instruction that does not end a block goes on with the next. -/
theorem goes_on {machine : Machine} {calls : Calls} {instr : Instr} {state next : State}
    {control : Control} (plain : instr.isTerminator = false)
    (ran : instr.exec machine calls state = some (next, control)) : control = .next := by
  obtain ⟨values, effect, _, performed, _, rfl⟩ := exec_eq_some_iff.1 ran
  rw [Action.control_eq_next_iff performed]
  intro op isOp
  rwa [isTerminator, op?, isOp] at plain

/-- Where only the last instruction ends a block, nothing is behind the one that does not go on. -/
theorem eq_nil_of_stops {machine : Machine} {calls : Calls} {instr : Instr} {rest : List Instr}
    {state next : State} {control : Control}
    (straight : ∀ other ∈ (instr :: rest).dropLast, other.isTerminator = false)
    (ran : instr.exec machine calls state = some (next, control)) (stops : control ≠ .next) :
    rest = [] := by
  cases rest with
  | nil => rfl
  | cons second others => exact absurd (goes_on (straight instr (List.mem_cons_self ..)) ran) stops

/-- What is behind an instruction ends a block at its last instruction at most, too. -/
theorem straight_tail {instr : Instr} {rest : List Instr}
    (straight : ∀ other ∈ (instr :: rest).dropLast, other.isTerminator = false) :
    ∀ other ∈ rest.dropLast, other.isTerminator = false := by
  intro other member
  refine straight other ?_
  cases rest with
  | nil => cases member
  | cons second others => exact List.mem_cons_of_mem _ member

/-- A list of instructions that does not end a block runs to its end. -/
theorem control_eq_next_of_execAll {machine : Machine} {calls : Calls} {instrs : List Instr}
    {state next : State} {control : Control}
    (plain : ∀ instr ∈ instrs, instr.isTerminator = false)
    (ran : execAll machine calls instrs state = some (next, control)) : control = .next := by
  induction instrs generalizing state with
  | nil =>
    obtain ⟨rfl, rfl⟩ := Prod.mk.inj (Option.some.inj ran)
    rfl
  | cons instr rest restIH =>
    rw [execAll_cons] at ran
    obtain ⟨⟨middle, goes⟩, first, ran⟩ := Option.bind_eq_some_iff.1 ran
    rw [if_pos (goes_on (plain instr (List.mem_cons_self ..)) first)] at ran
    exact restIH (fun other member => plain other (List.mem_cons_of_mem _ member)) ran

/-- A run of a machine and calls that have an answer wherever others have one. -/
theorem exec_mono {machine other : Machine} {calls more : Calls} {instr : Instr}
    {state : State} {result : State × Control} (floats : other.floats = machine.floats)
    (applied : ∀ op args value, machine.apply op args = some value →
      other.apply op args = some value)
    (called : ∀ name args answer, calls name args = some answer → more name args = some answer)
    (ran : instr.exec machine calls state = some result) :
    instr.exec other more state = some result := by
  obtain ⟨values, effect, found, performed, same, goes⟩ := exec_eq_some_iff.1 ran
  exact exec_eq_some_iff.2
    ⟨values, effect, found, Action.perform_mono floats applied called performed, same, goes⟩

/-- A run with calls that are the limit of others is a run with one of these. -/
theorem exec_limit {machine : Machine} {limit : Calls} {calls : Nat → Calls} {instr : Instr}
    {state : State} {result : State × Control}
    (reached : ∀ name args answer, limit name args = some answer →
      ∃ fuel, calls fuel name args = some answer)
    (ran : instr.exec machine limit state = some result) :
    ∃ fuel, instr.exec machine (calls fuel) state = some result := by
  obtain ⟨values, effect, found, performed, same, goes⟩ := exec_eq_some_iff.1 ran
  obtain ⟨fuel, performed⟩ := Action.perform_limit reached performed
  exact ⟨fuel, exec_eq_some_iff.2 ⟨values, effect, found, performed, same, goes⟩⟩

end Instr

end Midend
