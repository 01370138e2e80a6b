import Midend.Proofs.Semantics.Exec

/-! # Well-formed instructions

What `Instr.check` promises: how many arguments, labels and functions an operation has
(`Instr.Checked`), that a run reads all arguments (`Instr.reads_eq_args`), and which operations end a
block (`Instr.terminator_cases`). -/

namespace Midend

/-- The numbers of operands fit an operation. -/
structure Operands.Fit (op : Opcode) (operands : Operands) : Prop where
  /-- The number of arguments, unless it varies. -/
  args_length : ∀ expected, op.arity = some expected → operands.args.length = expected
  /-- The number of labels, unless it follows the number of arguments. -/
  labels_length : ∀ expected, op.labelCount = some expected → operands.labels.length = expected
  /-- A merge has a label for every argument. -/
  labels_args : op.labelCount = none → operands.labels.length = operands.args.length
  /-- A merge has an argument. -/
  args_ne_nil : op.labelCount = none → operands.args ≠ []
  /-- Only a call names a function. -/
  funcs_length : operands.funcs.length = if op = .call then 1 else 0

/-- What fits is how many arguments there are, not which. -/
theorem Operands.Fit.of_args {op : Opcode} {operands : Operands} (fit : operands.Fit op)
    {args : List String} (length : args.length = operands.args.length) :
    Fit op { operands with args } where
  args_length expected isArity := length.trans (fit.args_length expected isArity)
  labels_length := fit.labels_length
  labels_args varies := (fit.labels_args varies).trans length.symm
  args_ne_nil varies := by
    have nonempty := List.length_pos_iff.2 (fit.args_ne_nil varies)
    exact List.length_pos_iff.1 (length.symm ▸ nonempty)
  funcs_length := fit.funcs_length

namespace Instr

/-- The check of the operands is what it says. -/
theorem checkOperands_eq_ok_iff {op : Opcode} {operands : Operands} :
    checkOperands op operands = .ok () ↔ operands.Fit op := by
  have facts : operands.Fit op ↔
      (∀ expected, op.arity = some expected → operands.args.length = expected) ∧
      (∀ expected, op.labelCount = some expected → operands.labels.length = expected) ∧
      (op.labelCount = none → operands.labels.length = operands.args.length ∧
        operands.args ≠ []) ∧
      operands.funcs.length = if op = .call then 1 else 0 := by
    constructor
    · intro fit
      exact ⟨fit.args_length, fit.labels_length, fun varies =>
        ⟨fit.labels_args varies, fit.args_ne_nil varies⟩, fit.funcs_length⟩
    · rintro ⟨args, labels, both, funcs⟩
      exact ⟨args, labels, fun varies => (both varies).1, fun varies => (both varies).2, funcs⟩
  rw [facts]
  unfold checkOperands
  cases op.arity <;> cases op.labelCount <;>
    simp only [bind, Except.bind, pure, Except.pure, throw, throwThe, MonadExceptOf.throw,
      List.isEmpty_iff] <;> grind

/-- A well-formed instruction. -/
def Checked (instr : Instr) : Prop := instr.check = .ok ()

/-- What is checked of an operation that writes a variable. -/
theorem checked_compute_iff {instr : Instr} {op : Opcode} {dest : String} {ty : Ty}
    {operands : Operands} (isCompute : instr.action = .compute op dest ty operands) :
    instr.Checked ↔ op.isValue = true ∧ op ≠ .const ∧ operands.Fit op := by
  rw [Checked, check, isCompute]
  simp only
  split
  · rename_i refused
    simp only [reduceCtorEq, false_iff]
    rintro ⟨isValue, notConst, _⟩
    rcases refused with notValue | isConst
    · simp [isValue] at notValue
    · exact notConst isConst
  · rename_i allowed
    rw [not_or] at allowed
    rw [checkOperands_eq_ok_iff]
    exact ⟨fun fit => ⟨by simpa using allowed.1, allowed.2, fit⟩, fun facts => facts.2.2⟩

/-- What is checked of an operation that writes no variable. -/
theorem checked_effect_iff {instr : Instr} {op : Opcode} {operands : Operands}
    (isEffect : instr.action = .effect op operands) :
    instr.Checked ↔ op.isEffect = true ∧ operands.Fit op ∧
      (op = .ret → operands.args.length ≤ 1) := by
  rw [Checked, check, isEffect, ← checkOperands_eq_ok_iff]
  simp only [bind, Except.bind, pure, Except.pure, throw, throwThe, MonadExceptOf.throw]
  cases op.isEffect with
  | false => simp
  | true =>
    cases checkOperands op operands with
    | error error => simp
    | ok done =>
      by_cases tooMany : op = .ret ∧ 1 < operands.args.length
      · simp [tooMany]
      · rw [if_neg tooMany]
        rw [not_and, Nat.not_lt] at tooMany
        simpa using tooMany

/-- Every instruction that defines a constant is well-formed. -/
theorem checked_const {instr : Instr} {dest : String} {ty : Ty} {value : Literal}
    (isConst : instr.action = .const dest ty value) : instr.Checked := by
  rw [Checked, check, isConst]

/-- A merge with a label for every argument is well-formed, as long as it has one. -/
theorem checked_phi {dest : String} {ty : Ty} {args labels : List String}
    (length : labels.length = args.length) (nonempty : args ≠ []) :
    (phi dest ty args labels).Checked :=
  (checked_compute_iff rfl).2 ⟨rfl, by decide, ⟨by simp [Opcode.arity], by simp [Opcode.labelCount],
    fun _ => length, fun _ => nonempty, rfl⟩⟩

/-- An instruction that makes an undefined value is well-formed. -/
theorem checked_undef (dest : String) (ty : Ty) : (undef dest ty).Checked :=
  (checked_compute_iff rfl).2 ⟨rfl, by decide, ⟨by simp [Opcode.arity], by simp [Opcode.labelCount],
    by simp [Opcode.labelCount], by simp [Opcode.labelCount], rfl⟩⟩

/-- A copy is well-formed. -/
theorem checked_copy (dest : String) (ty : Ty) (source : String) : (copy dest ty source).Checked :=
  (checked_compute_iff rfl).2 ⟨rfl, by decide, ⟨by simp [Opcode.arity], by simp [Opcode.labelCount],
    by simp [Opcode.labelCount], by simp [Opcode.labelCount], rfl⟩⟩

/-- A run of a well-formed instruction other than a merge reads all its arguments. -/
theorem reads_eq_args {instr : Instr} (checked : instr.Checked) : instr.reads = instr.args := by
  cases isAction : instr.action with
  | const dest ty value => simp [reads, Action.reads, args, isAction]
  | compute op dest ty operands =>
    obtain ⟨_, _, fit⟩ := (checked_compute_iff isAction).1 checked
    rw [reads, args, isAction]
    unfold Action.reads Action.operands
    split <;> simp_all only [Action.compute.injEq]
    · exact List.take_of_length_le (Nat.le_of_eq (fit.args_length 1 (by simp_all [Opcode.arity])))
    · exact (List.eq_nil_of_length_eq_zero (fit.args_length 0 (by simp_all [Opcode.arity]))).symm
    all_goals simp_all
  | effect op operands =>
    obtain ⟨_, fit, single⟩ := (checked_effect_iff isAction).1 checked
    rw [reads, args, isAction]
    unfold Action.reads Action.operands
    split <;> simp_all only [Action.effect.injEq]
    · simp_all
    · simp_all
    · exact (List.eq_nil_of_length_eq_zero (fit.args_length 0 (by simp_all [Opcode.arity]))).symm
    · exact List.take_of_length_le (Nat.le_of_eq (fit.args_length 1 (by simp_all [Opcode.arity])))
    · exact List.take_of_length_le (single (by simp_all))
    · exact (List.eq_nil_of_length_eq_zero (fit.args_length 0 (by simp_all [Opcode.arity]))).symm
  | label name => simp [reads, Action.reads, args, isAction]

/-! ## Changed names -/

section Changed

variable (instr : Instr) (change : String → String)

@[simp] theorem op?_mapArgs : (instr.mapArgs change).op? = instr.op? := by
  unfold mapArgs op?
  cases instr.action <;> rfl

@[simp] theorem dest?_mapArgs : (instr.mapArgs change).dest? = instr.dest? := by
  unfold mapArgs dest?
  cases instr.action <;> rfl

@[simp] theorem args_mapArgs : (instr.mapArgs change).args = instr.args.map change := by
  unfold mapArgs args
  cases instr.action <;> rfl

@[simp] theorem labels_mapArgs : (instr.mapArgs change).labels = instr.labels := by
  unfold mapArgs labels
  cases instr.action <;> rfl

@[simp] theorem isPhi_mapArgs : (instr.mapArgs change).isPhi = instr.isPhi := by
  unfold mapArgs isPhi
  cases instr.action with
  | compute op dest ty operands => cases op <;> rfl
  | _ => rfl

@[simp] theorem isLabel_mapArgs : (instr.mapArgs change).isLabel = instr.isLabel := by
  unfold mapArgs isLabel
  cases instr.action <;> rfl

@[simp] theorem isTerminator_mapArgs :
    (instr.mapArgs change).isTerminator = instr.isTerminator := by
  rw [isTerminator, op?_mapArgs, isTerminator]

@[simp] theorem op?_mapDest : (instr.mapDest change).op? = instr.op? := by
  unfold mapDest op?
  cases instr.action <;> rfl

@[simp] theorem dest?_mapDest : (instr.mapDest change).dest? = instr.dest?.map change := by
  unfold mapDest dest?
  cases instr.action <;> rfl

@[simp] theorem args_mapDest : (instr.mapDest change).args = instr.args := by
  unfold mapDest args
  cases instr.action <;> rfl

@[simp] theorem labels_mapDest : (instr.mapDest change).labels = instr.labels := by
  unfold mapDest labels
  cases instr.action <;> rfl

@[simp] theorem isPhi_mapDest : (instr.mapDest change).isPhi = instr.isPhi := by
  unfold mapDest isPhi
  cases instr.action with
  | compute op dest ty operands => cases op <;> rfl
  | _ => rfl

@[simp] theorem isLabel_mapDest : (instr.mapDest change).isLabel = instr.isLabel := by
  unfold mapDest isLabel
  cases instr.action <;> rfl

@[simp] theorem isTerminator_mapDest :
    (instr.mapDest change).isTerminator = instr.isTerminator := by
  rw [isTerminator, op?_mapDest, isTerminator]

@[simp] theorem mapArgs_id : instr.mapArgs id = instr := by
  obtain ⟨action, pos, key⟩ := instr
  cases action <;> simp [mapArgs, Action.mapOperands]

@[simp] theorem mapDest_id : instr.mapDest id = instr := by
  obtain ⟨action, pos, key⟩ := instr
  cases action <;> rfl

/-- A run reads the other names for the arguments. -/
theorem reads_mapArgs : (instr.mapArgs change).reads = instr.reads.map change := by
  unfold reads mapArgs
  cases instr.action with
  | const dest ty value => rfl
  | compute op dest ty operands =>
    cases op <;> simp [Action.mapOperands, Action.reads, Action.operands, List.map_take]
  | effect op operands =>
    cases op <;> simp [Action.mapOperands, Action.reads, Action.operands, List.map_take]
  | label name => rfl

/-- A run reads the same whatever is written. -/
theorem reads_mapDest : (instr.mapDest change).reads = instr.reads := by
  unfold reads mapDest
  cases instr.action with
  | compute op dest ty operands => cases op <;> rfl
  | _ => rfl

/-- An instruction does the same with the values of other arguments. -/
theorem perform_mapArgs (machine : Machine) (calls : Calls) (values : List Value) :
    (instr.mapArgs change).action.perform machine calls values =
      instr.action.perform machine calls values :=
  Action.perform_mapOperands machine calls instr.action
    (fun operands => { operands with args := operands.args.map change }) (fun _ => ⟨rfl, rfl⟩) values

/-- An instruction with as many other arguments is as well-formed as before. -/
theorem checked_of_args {instr other : Instr} (checked : instr.Checked) (args : List String)
    (length : args.length = instr.args.length)
    (isOther : other.action = instr.action.mapOperands fun operands => { operands with args }) :
    other.Checked := by
  cases isAction : instr.action with
  | const dest ty value => exact checked_const (by rw [isOther, isAction]; rfl)
  | compute op dest ty operands =>
    rw [isAction, Action.mapOperands] at isOther
    rw [Instr.args, isAction, Action.operands] at length
    obtain ⟨isValue, notConst, fit⟩ := (checked_compute_iff isAction).1 checked
    exact (checked_compute_iff isOther).2 ⟨isValue, notConst, fit.of_args length⟩
  | effect op operands =>
    rw [isAction, Action.mapOperands] at isOther
    rw [Instr.args, isAction, Action.operands] at length
    obtain ⟨isEffect, fit, single⟩ := (checked_effect_iff isAction).1 checked
    exact (checked_effect_iff isOther).2
      ⟨isEffect, fit.of_args length, fun isRet => length ▸ single isRet⟩
  | label name =>
    rw [isAction] at isOther
    change other.action = .label name at isOther
    rw [Checked, check, isAction] at checked
    rw [Checked, check, isOther]
    exact checked

variable {instr}

/-- Other names for the arguments keep an instruction well-formed. -/
theorem Checked.mapArgs (checked : instr.Checked) : (instr.mapArgs change).Checked := by
  refine checked_of_args checked (instr.args.map change) (List.length_map _) ?_
  rw [Instr.mapArgs, args]
  cases instr.action <;> rfl

/-- Another name for the variable written keeps an instruction well-formed. -/
theorem Checked.mapDest (checked : instr.Checked) : (instr.mapDest change).Checked := by
  unfold Checked check at checked ⊢
  unfold Instr.mapDest
  cases isAction : instr.action with
  | const dest ty value => rfl
  | compute op dest ty operands =>
    rw [isAction] at checked
    simp only [Action.mapDest] at checked ⊢
    split at checked
    · cases checked
    · rename_i allowed
      rw [if_neg allowed]
      exact checked
  | effect op operands =>
    rw [isAction] at checked
    exact checked
  | label name =>
    rw [isAction] at checked
    exact checked

end Changed

/-- A jump is well-formed and ends a block. -/
theorem jmp_spec {instr : Instr} {target : String} (action : instr.action = (jmp target).action) :
    instr.isTerminator = true ∧ instr.Checked ∧ instr.isLabel = false ∧ instr.isPhi = false :=
  ⟨by rw [isTerminator, op?, action]; rfl,
    (checked_effect_iff action).2 ⟨rfl, checkOperands_eq_ok_iff.1 rfl, by simp⟩,
    by rw [isLabel, action]; rfl, by rw [isPhi, action]; rfl⟩

/-- The instructions that end a block. -/
theorem terminator_cases {instr : Instr} (checked : instr.Checked)
    (terminator : instr.isTerminator = true) :
    (∃ operands target, instr.action = .effect .jmp operands ∧ operands.args = [] ∧
      operands.labels = [target]) ∨
    (∃ operands condition positive negative, instr.action = .effect .br operands ∧
      operands.args = [condition] ∧ operands.labels = [positive, negative]) ∨
    (∃ operands, instr.action = .effect .ret operands ∧ operands.labels = []) := by
  cases isAction : instr.action with
  | const dest ty value => simp [isTerminator, op?, Action.op?, isAction, Opcode.isTerminator,
      Opcode.traits] at terminator
  | compute op dest ty operands =>
    obtain ⟨isValue, _, _⟩ := (checked_compute_iff isAction).1 checked
    rw [isTerminator, op?, isAction] at terminator
    cases op <;> simp [Action.op?, Opcode.isTerminator, Opcode.isValue, Opcode.traits] at *
  | effect op operands =>
    obtain ⟨_, fit, _⟩ := (checked_effect_iff isAction).1 checked
    rw [isTerminator, op?, isAction] at terminator
    cases op <;> try simp [Action.op?, Opcode.isTerminator, Opcode.traits] at terminator
    case jmp =>
      have args := List.eq_nil_of_length_eq_zero (fit.args_length 0 rfl)
      obtain ⟨target, labels⟩ := List.length_eq_one_iff.1 (fit.labels_length 1 rfl)
      exact .inl ⟨operands, target, rfl, args, labels⟩
    case br =>
      obtain ⟨condition, args⟩ := List.length_eq_one_iff.1 (fit.args_length 1 rfl)
      obtain ⟨positive, negative, labels⟩ := List.length_eq_two.1 (fit.labels_length 2 rfl)
      exact .inr (.inl ⟨operands, condition, positive, negative, rfl, args, labels⟩)
    case ret =>
      have labels := List.eq_nil_of_length_eq_zero (fit.labels_length 0 rfl)
      exact .inr (.inr ⟨operands, rfl, labels⟩)
  | label name => simp [isTerminator, op?, Action.op?, isAction] at terminator

/-- The parts of a merge. -/
theorem exists_of_isPhi {instr : Instr} (isPhi : instr.isPhi = true) :
    ∃ dest ty operands, instr.action = .compute .phi dest ty operands := by
  unfold Instr.isPhi at isPhi
  split at isPhi
  · rename_i dest ty operands isAction
    exact ⟨dest, ty, operands, isAction⟩
  · cases isPhi

/-- A merge is no label. -/
theorem isLabel_of_isPhi {instr : Instr} (isPhi : instr.isPhi = true) : instr.isLabel = false := by
  obtain ⟨dest, ty, operands, isAction⟩ := exists_of_isPhi isPhi
  rw [isLabel, isAction]

/-- Nothing is written by the instruction that ends a block. -/
theorem dest?_of_terminator {instr : Instr} (checked : instr.Checked)
    (ends : instr.isTerminator = true) : instr.dest? = none := by
  rcases terminator_cases checked ends with ⟨_, _, action, _⟩ | ⟨_, _, _, _, action, _⟩ |
    ⟨_, action, _⟩ <;> rw [dest?, action] <;> rfl

end Instr

end Midend
