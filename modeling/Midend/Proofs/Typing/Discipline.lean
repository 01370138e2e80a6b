import Midend.Proofs.FlowGraph.WellFormed
import Midend.Proofs.Fresh
import Midend.Proofs.Program.RoundTrip

/-! # Disciplines of code

A `Discipline` says which types, constants and callees may stand in code and how far its types are
told apart. An instruction conforms to it when the kinds of its variables agree with the types that it
declares. Told apart by nothing, types only have to be allowed ones; told apart by themselves, they
have to be right. -/

namespace Midend

/-! ## Results of operations -/

namespace Opcode

/-- The type of the results of an operation, if they all have one. -/
def result? : Opcode → Option Ty
  | .add | .sub | .mul | .div => some .int
  | .eq | .ne | .lt | .gt | .le | .ge | .not | .and | .or => some .bool
  | .fadd | .fsub | .fmul | .fdiv => some .float
  | .feq | .flt | .fle | .fgt | .fge => some .bool
  | _ => none

/-- Whether the results of an operation have the type of its arguments. -/
def carries : Opcode → Bool
  | .id | .phi | .ptradd => true
  | _ => false

/-- The arguments of an operation that have the type of its result. -/
def carried {α : Type} : Opcode → List α → List α
  | .id, args => args
  | .phi, args => args
  | .ptradd, args => args.take 1
  | _, _ => []

variable {op : Opcode}

/-- The type of a result without side effects is that of the operation or of its arguments. -/
theorem carries_of_isPure (pure : op.isPure = true) (defined : op ≠ .undef) (notConst : op ≠ .const)
    (free : op.result? = none) : op.carries = true := by
  cases op <;> first | rfl | contradiction

/-- An operation whose operands may be swapped carries no argument. -/
theorem carried_of_isCommutative {α : Type} (commutes : op.isCommutative = true) (args : List α) :
    op.carried args = [] := by
  cases op <;> first | rfl | contradiction

/-- An operation that carries arguments carries the first one. -/
theorem mem_carried {α : Type} (carries : op.carries = true) (first : α) (rest : List α) :
    first ∈ op.carried (first :: rest) := by
  cases op <;> first | contradiction | simp [carried]

/-- What is carried stays related. -/
theorem forall₂_carried {α β : Type} {related : α → β → Prop} (op : Opcode) {left : List α}
    {right : List β} (pairs : List.Forall₂ related left right) :
    List.Forall₂ related (op.carried left) (op.carried right) := by
  cases op <;> first | exact .nil | exact pairs | exact List.forall₂_take 1 pairs

end Opcode

/-! ## Disciplines -/

/-- What may stand in code, and what of its types counts. -/
structure Discipline where
  /-- What of a type counts. -/
  kind : Ty → Ty
  /-- The types that variables may have. -/
  types : Ty → Prop
  /-- The constants that may stand in code. -/
  literals : Literal → Prop
  /-- The functions that may be called. -/
  callees : String → Prop
  /-- Every integer may. -/
  int : ∀ value, literals (.int value)
  /-- Both truth values may. -/
  bool : ∀ value, literals (.bool value)

/-- The kinds of the variables that have one. -/
abbrev Kinds := String → Option Ty

/-- More variables have kinds, and those that had one keep it. -/
def Kinds.Grows (kinds later : Kinds) : Prop :=
  ∀ var kind, kinds var = some kind → later var = some kind

/-- Only variables whose names are taken have kinds. -/
def Kinds.Within (kinds : Kinds) (names : NameSupply) : Prop :=
  ∀ var kind, kinds var = some kind → var ∈ names.taken

/-- The names that stand for variables have the kinds of the variables. -/
def Kinds.Agrees (kinds : Kinds) (names : SortedMap String String) : Prop :=
  ∀ var name, names.get? var = some name → (kinds var).isSome = true ∧ kinds name = kinds var

namespace Kinds

variable {kinds middle later : Kinds}

/-- Nothing is added. -/
theorem Grows.refl (kinds : Kinds) : kinds.Grows kinds := fun _ _ => id

/-- More is added, and more again. -/
theorem Grows.trans (first : kinds.Grows middle) (second : middle.Grows later) :
    kinds.Grows later := fun var kind known => second var kind (first var kind known)

/-- Variables with kinds keep them. -/
theorem Grows.eq (grows : kinds.Grows later) {var : String} (known : (kinds var).isSome = true) :
    later var = kinds var := by
  obtain ⟨kind, isKind⟩ := Option.isSome_iff_exists.1 known
  rw [isKind, grows var kind isKind]

/-- A new name gets a kind. -/
theorem exists_fresh {names : NameSupply} (within : kinds.Within names) (stem : String) (kind : Ty) :
    ∃ later : Kinds, kinds.Grows later ∧ later.Within (names.fresh stem).2 ∧
      later (names.fresh stem).1 = some kind := by
  obtain ⟨_, isFree, mem_iff⟩ := names.fresh_spec stem
  refine ⟨Function.update kinds (names.fresh stem).1 (some kind), fun var known isKnown => ?_,
    fun var known isKnown => (mem_iff var).2 ?_, Function.update_self ..⟩
  · have apart : var ≠ (names.fresh stem).1 := fun same => isFree (same ▸ within var known isKnown)
    rw [Function.update_of_ne apart]
    exact isKnown
  · by_cases isNew : var = (names.fresh stem).1
    · exact .inl isNew
    · rw [Function.update_of_ne isNew] at isKnown
      exact .inr (within var known isKnown)

section Agrees

variable {names : SortedMap String String}

/-- Nothing stands for a variable. -/
theorem Agrees.empty : kinds.Agrees .empty := by
  intro var name found
  rw [SortedMap.get?_empty] at found
  cases found

/-- More kinds do not matter. -/
theorem Agrees.mono (agrees : kinds.Agrees names) (grows : kinds.Grows later) :
    later.Agrees names := by
  intro var name found
  obtain ⟨known, same⟩ := agrees var name found
  rw [grows.eq known, grows.eq (same ▸ known)]
  exact ⟨known, same⟩

/-- A name of the right kind stands for a variable. -/
theorem Agrees.insert (agrees : kinds.Agrees names) {var name : String} {kind : Ty}
    (isKind : kinds var = some kind) (isName : kinds name = some kind) :
    kinds.Agrees (names.insert var name) := by
  intro other found isFound
  rw [SortedMap.get?_insert_eq] at isFound
  split at isFound
  · rename_i same
    obtain rfl := Option.some.inj isFound
    rw [same, isKind, isName]
    exact ⟨rfl, rfl⟩
  · exact agrees other found isFound

/-- Nothing stands for a variable any longer. -/
theorem Agrees.erase (agrees : kinds.Agrees names) (var : String) :
    kinds.Agrees (names.erase var) := by
  intro other name found
  rw [SortedMap.get?_erase_eq] at found
  split at found
  · cases found
  · exact agrees other name found

/-- What stands for a variable, if only the variable itself, has its kind. -/
theorem Agrees.getD (agrees : kinds.Agrees names) (var : String) :
    kinds (names.getD var var) = kinds var := by
  rw [SortedMap.getD]
  cases found : names.get? var with
  | none => rfl
  | some name => exact (agrees var name found).2

end Agrees

end Kinds

variable {discipline : Discipline} {kinds later : Kinds}

/-- Operands that may stand in code: callees are allowed, and arguments have kinds. -/
structure Operands.Conform (discipline : Discipline) (kinds : Kinds) (operands : Operands) :
    Prop where
  /-- Callees are allowed. -/
  funcs : ∀ callee ∈ operands.funcs, discipline.callees callee
  /-- Arguments have kinds. -/
  args : ∀ arg ∈ operands.args, (kinds arg).isSome = true

/-- An operation on operands gives results of a type. -/
structure Opcode.Yields (discipline : Discipline) (kinds : Kinds) (op : Opcode) (ty : Ty)
    (operands : Operands) : Prop where
  /-- The type is that of the results, if they all have one. -/
  result : ∀ result, op.result? = some result → discipline.kind ty = discipline.kind result
  /-- What is carried has the type. -/
  carried : ∀ arg ∈ op.carried operands.args, kinds arg = some (discipline.kind ty)
  /-- If something is to be carried then there is something. -/
  args_ne : op.carries = true → operands.args ≠ []
  /-- A merge takes something from somewhere. -/
  labels_ne : op = .phi → operands.labels ≠ []

/-- An action that may stand in code. -/
inductive Action.Conforms (discipline : Discipline) (kinds : Kinds) : Action → Prop where
  /-- A constant of the declared type. -/
  | const {dest : String} {ty : Ty} {value : Literal} : discipline.types ty →
      kinds dest = some (discipline.kind ty) → discipline.literals value →
        discipline.kind value.ty = discipline.kind ty → Conforms discipline kinds (.const dest ty value)
  /-- An operation with results of the declared type. -/
  | compute {op : Opcode} {dest : String} {ty : Ty} {operands : Operands} : op ≠ .const →
      discipline.types ty → kinds dest = some (discipline.kind ty) →
        operands.Conform discipline kinds → op.Yields discipline kinds ty operands →
          Conforms discipline kinds (.compute op dest ty operands)
  /-- An operation without a result. -/
  | effect {op : Opcode} {operands : Operands} : op ≠ .const → operands.Conform discipline kinds →
      Conforms discipline kinds (.effect op operands)
  /-- A label. -/
  | label (name : String) : Conforms discipline kinds (.label name)

/-- An instruction that may stand in code. -/
structure Instr.Conforms (discipline : Discipline) (kinds : Kinds) (instr : Instr) : Prop where
  /-- What it does may. -/
  action : instr.action.Conforms discipline kinds
  /-- Its position can be written. -/
  pos : ∀ position ∈ instr.pos, position.Fits
  /-- Its key can be written. -/
  key : instr.key < keyLimit

/-- An action that may stand in some code: types, constants and callees are allowed. -/
def Action.Admitted (discipline : Discipline) : Action → Prop
  | .const _ ty value => discipline.types ty ∧ discipline.literals value ∧
      discipline.kind value.ty = discipline.kind ty
  | .compute op _ ty operands => op ≠ .const ∧ discipline.types ty ∧
      (op = .call → ∀ callee ∈ operands.funcs, discipline.callees callee)
  | .effect op operands => op ≠ .const ∧
      (op = .call → ∀ callee ∈ operands.funcs, discipline.callees callee)
  | .label _ => True

/-- An instruction that may stand in some code. -/
structure Instr.Admitted (discipline : Discipline) (instr : Instr) : Prop where
  /-- What it does may. -/
  action : instr.action.Admitted discipline
  /-- Its position can be written. -/
  pos : ∀ position ∈ instr.pos, position.Fits
  /-- Its key can be written. -/
  key : instr.key < keyLimit

/-- What may stand in code with these kinds may stand in some. -/
theorem Instr.Conforms.admitted {instr : Instr} (conforms : instr.Conforms discipline kinds) :
    instr.Admitted discipline := by
  refine ⟨?_, conforms.pos, conforms.key⟩
  have does := conforms.action
  cases isAction : instr.action with
  | label name => trivial
  | const dest ty value =>
    rw [isAction] at does
    cases does with
    | const allowed _ isLiteral agrees => exact ⟨allowed, isLiteral, agrees⟩
  | compute op dest ty operands =>
    rw [isAction] at does
    cases does with
    | compute notConst allowed _ conform _ => exact ⟨notConst, allowed, fun _ => conform.funcs⟩
  | effect op operands =>
    rw [isAction] at does
    cases does with
    | effect notConst conform => exact ⟨notConst, fun _ => conform.funcs⟩

/-! ## Changes of instructions -/

/-- Operands with arguments of the same kinds. -/
theorem Operands.Conform.withArgs {operands : Operands} (conform : operands.Conform discipline kinds)
    {args : List String}
    (same : List.Forall₂ (fun old new => later new = kinds old) operands.args args) :
    Operands.Conform discipline later { operands with args } := by
  refine ⟨conform.funcs, fun arg member => ?_⟩
  obtain ⟨old, isOld, isKind⟩ := exists_of_forall₂_right same member
  rw [isKind]
  exact conform.args old isOld

/-- Results for arguments of the same kinds. -/
theorem Opcode.Yields.withArgs {op : Opcode} {ty : Ty} {operands : Operands}
    (yields : op.Yields discipline kinds ty operands) {args : List String}
    (same : List.Forall₂ (fun old new => later new = kinds old) operands.args args) :
    op.Yields discipline later ty { operands with args } := by
  refine ⟨yields.result, fun arg member => ?_, fun carries empty => ?_, yields.labels_ne⟩
  · obtain ⟨old, isOld, isKind⟩ := exists_of_forall₂_right (op.forall₂_carried same) member
    rw [isKind]
    exact yields.carried old isOld
  · have length := same.length_eq
    rw [show args = [] from empty] at length
    exact yields.args_ne carries (List.eq_nil_of_length_eq_zero length)

namespace Action.Conforms

variable {action : Action}

/-- Arguments of the same kinds take the places of the arguments. -/
theorem withArgs (conforms : action.Conforms discipline kinds) {args : List String}
    (same : List.Forall₂ (fun old new => later new = kinds old) action.operands.args args)
    (sameDest : ∀ dest, action.dest? = some dest → later dest = kinds dest) :
    (action.mapOperands fun operands => { operands with args }).Conforms discipline later := by
  cases conforms with
  | const allowed isKind isLiteral agrees =>
    exact .const allowed ((sameDest _ rfl).trans isKind) isLiteral agrees
  | compute notConst allowed isKind conform yields =>
    exact .compute notConst allowed ((sameDest _ rfl).trans isKind) (conform.withArgs same)
      (yields.withArgs same)
  | effect notConst conform => exact .effect notConst (conform.withArgs same)
  | label name => exact .label name

/-- Other labels take the places of the labels. -/
theorem withLabels (conforms : action.Conforms discipline kinds) (change : String → String) :
    (action.mapOperands fun operands =>
      { operands with labels := operands.labels.map change }).Conforms discipline kinds := by
  cases conforms with
  | const allowed isKind isLiteral agrees => exact .const allowed isKind isLiteral agrees
  | compute notConst allowed isKind conform yields =>
    refine .compute notConst allowed isKind ⟨conform.funcs, conform.args⟩
      ⟨yields.result, yields.carried, yields.args_ne, fun isPhi => ?_⟩
    simpa using yields.labels_ne isPhi
  | effect notConst conform => exact .effect notConst ⟨conform.funcs, conform.args⟩
  | label name => exact .label name

/-- A variable of the same kind is written. -/
theorem withDest (conforms : action.Conforms discipline kinds) {change : String → String}
    (same : ∀ dest, action.dest? = some dest → kinds (change dest) = kinds dest) :
    (action.mapDest change).Conforms discipline kinds := by
  cases conforms with
  | const allowed isKind isLiteral agrees =>
    exact .const allowed ((same _ rfl).trans isKind) isLiteral agrees
  | compute notConst allowed isKind conform yields =>
    exact .compute notConst allowed ((same _ rfl).trans isKind) conform yields
  | effect notConst conform => exact .effect notConst conform
  | label name => exact .label name

/-- Arguments have kinds. -/
theorem args (conforms : action.Conforms discipline kinds) :
    ∀ arg ∈ action.operands.args, (kinds arg).isSome = true := by
  cases conforms with
  | compute _ _ _ conform _ => exact conform.args
  | effect _ conform => exact conform.args
  | const => exact nofun
  | label name => exact nofun

/-- The variable written has the kind of the declared type, which is an allowed one. -/
theorem written (conforms : action.Conforms discipline kinds) {dest : String} {ty : Ty}
    (isDest : action.dest? = some dest) (isTy : action.ty? = some ty) :
    discipline.types ty ∧ kinds dest = some (discipline.kind ty) := by
  cases conforms with
  | const allowed isKind _ _ | compute _ allowed isKind _ _ =>
    obtain rfl := Option.some.inj isDest
    obtain rfl := Option.some.inj isTy
    exact ⟨allowed, isKind⟩
  | effect => cases isDest
  | label => cases isDest

/-- The variable written has a kind. -/
theorem dest (conforms : action.Conforms discipline kinds) {dest : String}
    (isDest : action.dest? = some dest) : (kinds dest).isSome = true := by
  cases conforms with
  | const _ isKind _ _ | compute _ _ isKind _ _ =>
    obtain rfl := Option.some.inj isDest
    rw [isKind]
    rfl
  | effect => cases isDest
  | label => cases isDest

/-- Kinds matter only where there are variables. -/
theorem congr (conforms : action.Conforms discipline kinds)
    (sameArg : ∀ arg ∈ action.operands.args, later arg = kinds arg)
    (sameDest : ∀ dest, action.dest? = some dest → later dest = kinds dest) :
    action.Conforms discipline later := by
  have same := conforms.withArgs (List.forall₂_same.2 sameArg) sameDest
  cases action <;> exact same

/-- Kinds may be added. -/
theorem mono (conforms : action.Conforms discipline kinds) (grows : kinds.Grows later) :
    action.Conforms discipline later :=
  conforms.congr (fun arg member => grows.eq (conforms.args arg member))
    fun _ isDest => grows.eq (conforms.dest isDest)

/-- A copy of a variable of the right kind. -/
theorem copy {dest source : String} {ty : Ty} (allowed : discipline.types ty)
    (isKind : kinds dest = some (discipline.kind ty))
    (isSource : kinds source = some (discipline.kind ty)) :
    (Action.compute .id dest ty { args := [source] }).Conforms discipline kinds := by
  refine .compute nofun allowed isKind ⟨nofun, fun arg member => ?_⟩
    ⟨nofun, fun arg member => ?_, fun _ => nofun, nofun⟩
  · rw [List.mem_singleton.1 member, isSource]
    rfl
  · rw [show arg = source from List.mem_singleton.1 member]
    exact isSource

end Action.Conforms

namespace Instr.Conforms

variable {instr : Instr}

/-- Kinds may be added. -/
theorem mono (conforms : instr.Conforms discipline kinds) (grows : kinds.Grows later) :
    instr.Conforms discipline later :=
  ⟨conforms.action.mono grows, conforms.pos, conforms.key⟩

/-- Something else is done at the same place. -/
theorem withAction (conforms : instr.Conforms discipline kinds) {action : Action}
    (does : action.Conforms discipline later) :
    Instr.Conforms discipline later { instr with action } := ⟨does, conforms.pos, conforms.key⟩

/-- Other variables of the same kinds are read. -/
theorem mapArgs (conforms : instr.Conforms discipline kinds) {change : String → String}
    (same : ∀ arg ∈ instr.args, kinds (change arg) = kinds arg) :
    (instr.mapArgs change).Conforms discipline kinds := by
  have pairs : List.Forall₂ (fun old new => kinds new = kinds old) instr.action.operands.args
      (instr.args.map change) := by
    rw [List.forall₂_map_right_iff]
    exact List.forall₂_same.2 same
  have does := conforms.action.withArgs pairs fun _ _ => rfl
  refine ⟨?_, conforms.pos, conforms.key⟩
  obtain ⟨action, pos, key⟩ := instr
  cases action <;> exact does

/-- Other labels are named. -/
theorem mapLabels (conforms : instr.Conforms discipline kinds) (change : String → String) :
    (instr.mapLabels change).Conforms discipline kinds :=
  conforms.withAction (conforms.action.withLabels change)

/-- Another variable of the same kind is written. -/
theorem mapDest (conforms : instr.Conforms discipline kinds) {change : String → String}
    (same : ∀ dest, instr.dest? = some dest → kinds (change dest) = kinds dest) :
    (instr.mapDest change).Conforms discipline kinds :=
  conforms.withAction (conforms.action.withDest same)

/-- A new instruction, as soon as it has a key. -/
theorem of_action (action : Action) (does : action.Conforms discipline kinds) {key : Nat}
    (low : key < keyLimit) : Instr.Conforms discipline kinds { action, key } :=
  ⟨does, nofun, low⟩

end Instr.Conforms

/-! ## Flow graphs -/

namespace FlowGraph

variable {graph after : FlowGraph}

/-- A flow graph of instructions that may stand in code. -/
structure Conforms (discipline : Discipline) (kinds : Kinds) (graph : FlowGraph) : Prop where
  /-- Parameters have kinds and allowed types. -/
  params : ∀ param ∈ graph.params, discipline.types param.ty ∧
    kinds param.name = some (discipline.kind param.ty)
  /-- The instructions may stand in code. -/
  instrs : ∀ instr ∈ graph.instrs, instr.Conforms discipline kinds

/-- A flow graph whose variables have kinds such that it conforms. -/
def Orderly (discipline : Discipline) (graph : FlowGraph) : Prop :=
  ∃ kinds, graph.Conforms discipline kinds

/-- A flow graph that conforms to a discipline and whose blocks have names of their own. -/
structure Tidy (discipline : Discipline) (graph : FlowGraph) : Prop where
  /-- It conforms to the discipline. -/
  orderly : graph.Orderly discipline
  /-- Blocks have names of their own. -/
  nodup_names : graph.names.Nodup

/-- A flow graph of instructions each of which may stand in some code. -/
structure Admitted (discipline : Discipline) (graph : FlowGraph) : Prop where
  /-- Types of parameters are allowed. -/
  params : ∀ param ∈ graph.params, discipline.types param.ty
  /-- The instructions may stand in some code. -/
  instrs : ∀ instr ∈ graph.instrs, instr.Admitted discipline

/-- Instructions that may stand in the same code may stand in some. -/
theorem Orderly.admitted (orderly : graph.Orderly discipline) : graph.Admitted discipline := by
  obtain ⟨kinds, conforms⟩ := orderly
  exact ⟨fun param member => (conforms.params param member).1,
    fun instr member => (conforms.instrs instr member).admitted⟩

namespace Conforms

/-- The instructions of a block conform. -/
theorem of_mem (conforms : graph.Conforms discipline kinds) {block : Block}
    (member : block ∈ graph.blocks) : ∀ instr ∈ block.instrs, instr.Conforms discipline kinds :=
  fun instr inside => conforms.instrs instr (List.mem_flatMap.2 ⟨block, member, inside⟩)

/-- A flow graph with other instructions. -/
theorem of_instrs (conforms : graph.Conforms discipline kinds) (params_eq : after.params = graph.params)
    (instrs : ∀ instr ∈ after.instrs, instr.Conforms discipline kinds) :
    after.Conforms discipline kinds := ⟨by rw [params_eq]; exact conforms.params, instrs⟩

/-- Kinds may be added. -/
theorem mono (conforms : graph.Conforms discipline kinds) (grows : kinds.Grows later) :
    graph.Conforms discipline later :=
  ⟨fun param member => ⟨(conforms.params param member).1,
    grows _ _ (conforms.params param member).2⟩,
    fun instr member => (conforms.instrs instr member).mono grows⟩

/-- Blocks of a name are changed. -/
theorem modifyBlock (conforms : graph.Conforms discipline kinds) {name : String}
    {change : Block → Block}
    (changed : ∀ block ∈ graph.blocks, block.name = name →
      ∀ instr ∈ (change block).instrs, instr.Conforms discipline kinds) :
    (graph.modifyBlock name change).Conforms discipline kinds :=
  conforms.of_instrs rfl (forall_instrs_map name change conforms.instrs changed)

/-- Only variables that occur need kinds. -/
theorem exists_within (conforms : graph.Conforms discipline kinds) :
    ∃ fewer : Kinds, graph.Conforms discipline fewer ∧ fewer.Within (.ofGraph graph) := by
  refine ⟨fun var => if var ∈ (NameSupply.ofGraph graph).taken then kinds var else none,
    ⟨fun param member => ⟨(conforms.params param member).1, ?_⟩, fun instr member => ?_⟩,
    fun var kind known => ?_⟩
  · rw [if_pos (NameSupply.taken_of_param (List.mem_map_of_mem member))]
    exact (conforms.params param member).2
  · obtain ⟨block, isBlock, inside⟩ := List.mem_flatMap.1 member
    have conformsInstr := conforms.instrs instr member
    refine ⟨conformsInstr.action.congr (fun arg isArg => if_pos ?_) fun dest isDest => if_pos ?_,
      conformsInstr.pos, conformsInstr.key⟩
    · exact NameSupply.taken_of_arg isBlock inside isArg
    · exact NameSupply.taken_of_dest isBlock inside isDest
  · dsimp only at known
    split at known
    · rename_i isTaken
      exact isTaken
    · cases known

end Conforms

/-! ## New instructions -/

/-- New instructions get keys. -/
theorem forall_freshKeys {holds : Instr → Prop}
    (rekeys : ∀ instr key, key < keyLimit → holds instr → holds (instr.withKey key))
    {instrs keyed : List Instr} (held : ∀ instr ∈ instrs, holds instr)
    (found : graph.freshKeys instrs = .ok (keyed, after)) :
    (∀ instr ∈ keyed, holds instr) ∧ ∃ nextKey, after = { graph with nextKey } := by
  induction instrs generalizing graph keyed with
  | nil =>
    obtain ⟨rfl, rfl⟩ := Prod.mk.inj (Except.ok.inj found)
    exact ⟨nofun, _, rfl⟩
  | cons instr rest restIH =>
    rw [List.forall_mem_cons] at held
    obtain ⟨⟨key, middle⟩, isKey, found⟩ := Attempt.bind_eq_ok.1 found
    obtain ⟨⟨others, last⟩, isRest, found⟩ := Attempt.bind_eq_ok.1 found
    obtain ⟨rfl, rfl⟩ := Prod.mk.inj (Except.ok.inj found)
    obtain ⟨low, rfl⟩ := freshKey_spec isKey
    obtain ⟨holdRest, nextKey, isAfter⟩ := restIH held.2 isRest
    exact ⟨List.forall_mem_cons.2 ⟨rekeys instr _ low held.1, holdRest⟩, nextKey, isAfter⟩

/-- New instructions that conform do so with their keys. -/
theorem conforms_freshKeys {instrs keyed : List Instr}
    (does : ∀ instr ∈ instrs, instr.Conforms discipline kinds)
    (found : graph.freshKeys instrs = .ok (keyed, after)) :
    (∀ instr ∈ keyed, instr.Conforms discipline kinds) ∧
      ∃ nextKey, after = { graph with nextKey } :=
  forall_freshKeys (fun _ _ low conforms => ⟨conforms.action, conforms.pos, low⟩) does found

end FlowGraph

end Midend
