import Midend.Proofs.FlowGraph.Rebuild
import Midend.Proofs.Optimizer.Independence
import Midend.Proofs.Program.RoundTrip
import Midend.Proofs.Typing.Copies
import Midend.Proofs.Typing.Merges
import Midend.Proofs.Typing.Passes

/-! # Optimized programs can be read back

What an optimizer makes of a program that was read can be written, links and is not nested too deep
(`Optimizer.admitted_run`). So a faithful text layer reads it back as it is, unless a constant is of
another type than the one that is declared for it (`Optimizer.ofText_toText_run`). There is no such
constant if the types of the program agree with each other, which nothing checks: an operation on
constants is replaced by its result under whatever type it was given. -/

namespace Midend

variable {kind : Ty → Ty} {types : String → Ty}

/-! ## Types of variables -/

/-- Whether the types that an action declares are those of its variables, as far as types are told
apart: the type of what is written is that of the results of the operation, if they all have one, and
what is carried has it. -/
def Action.Typed (kind : Ty → Ty) (types : String → Ty) : Action → Prop
  | .const dest ty _ => kind (types dest) = kind ty
  | .compute op dest ty operands => kind (types dest) = kind ty ∧
      (∀ result, op.result? = some result → kind ty = kind result) ∧
      ∀ arg ∈ op.carried operands.args, kind (types arg) = kind ty
  | _ => True

/-- Whether the variables of a function have types that agree with the declared ones. -/
def Func.Typed (kind : Ty → Ty) (function : Func) : Prop :=
  ∃ types : String → Ty, (∀ param ∈ function.params, kind (types param.name) = kind param.ty) ∧
    ∀ instr ∈ function.instrs, instr.action.Typed kind types

/-- Whether the variables of each function have types that agree with the declared ones. -/
def Program.Typed (program : Program) : Prop := ∀ function ∈ program.functions, function.Typed id

/-- Types that are not told apart agree. -/
theorem Func.typed_of_const (kind : Ty) (function : Func) : function.Typed fun _ => kind := by
  refine ⟨fun _ => kind, fun _ _ => rfl, fun instr _ => ?_⟩
  cases instr.action with
  | const => exact rfl
  | compute => exact ⟨rfl, fun _ _ => rfl, fun _ _ => rfl⟩
  | effect | label => trivial

/-- Whether every constant has the type that is declared for it. -/
def Program.ConstantsFit (program : Program) : Prop :=
  ∀ function ∈ program.functions, ∀ instr ∈ function.instrs, ∀ value ∈ instr.literal?,
    instr.ty? = some value.ty

instance (program : Program) : Decidable program.ConstantsFit :=
  inferInstanceAs (Decidable (∀ function ∈ program.functions, ∀ instr ∈ function.instrs,
    ∀ value ∈ instr.literal?, instr.ty? = some value.ty))

/-! ## Linkage -/

/-- A program links if and only if functions have names of their own and calls go to functions that
are declared, or to intrinsics. -/
theorem Program.checkLinkage_eq_ok_iff {program : Program} : program.checkLinkage = .ok () ↔
    (program.functions.map Func.name).Nodup ∧ ∀ call ∈ program.calls,
      call.2 ∈ program.functions.map Func.name ∨ call.2 ∈ intrinsics := by
  have calls_known : program.calls.find? (fun call =>
      !(program.functions.map Func.name).contains call.2 && !intrinsics.contains call.2) = none ↔
        ∀ call ∈ program.calls,
          call.2 ∈ program.functions.map Func.name ∨ call.2 ∈ intrinsics := by
    simp only [List.find?_eq_none, Bool.and_eq_true, Bool.not_eq_true', List.contains_eq_mem,
      decide_eq_false_iff_not, not_and, Decidable.not_not, Decidable.or_iff_not_imp_left]
  constructor
  · intro links
    refine ⟨nodup_of_checkLinkage links, calls_known.1 ?_⟩
    simp only [checkLinkage, firstRepeated?_of_nodup (nodup_of_checkLinkage links)] at links
    split at links
    · cases links
    · assumption
  · rintro ⟨nodup, known⟩
    simp only [checkLinkage, firstRepeated?_of_nodup nodup, calls_known.2 known]
    rfl

/-- The calls of a function are calls of its program. -/
theorem Program.mem_calls {program : Program} {function : Func}
    (isFunction : function ∈ program.functions) {instr : Instr} (member : instr ∈ function.instrs)
    (isCall : instr.op? = some .call) {callee : String} (called : callee ∈ instr.funcs) :
    (function.name, callee) ∈ program.calls := by
  refine List.mem_flatMap.2 ⟨function, isFunction, List.mem_flatMap.2 ⟨instr, ?_, ?_⟩⟩
  · exact List.mem_filter.2 ⟨member, by simp [isCall]⟩
  · exact List.mem_map_of_mem called

/-! ## The discipline of a program -/

/-- What may stand in a program that links and can be read: types that are not nested too deep,
constants that are printed exactly, and calls of functions of these names and of intrinsics. -/
def readable (exact : Json.Number → Prop) (names : List String) (kind : Ty → Ty) : Discipline where
  kind := kind
  types ty := ty.depth + 5 ≤ Json.maxNesting
  literals literal := literal.Finite ∧ ∀ value, literal = .float value → exact (.float value)
  callees name := name ∈ names ∨ name ∈ intrinsics
  int _ := ⟨trivial, nofun⟩
  bool _ := ⟨trivial, nofun⟩

/-- A function whose parts outside its instructions can be written and read. -/
structure Signature.Readable (signature : Signature) : Prop where
  /-- The type of the result is not nested too deep. -/
  returnType : ∀ ty ∈ signature.returnType, ty.depth + 3 ≤ Json.maxNesting
  /-- The position fits. -/
  pos : ∀ position ∈ signature.pos, position.Fits

section

variable {layer : TextLayer} {exact : Json.Number → Prop} {program : Program}

/-- The constants of a program that can be written have the types that are declared for them. -/
theorem Program.Expressible.constantsFit (expressible : program.Expressible) :
    program.ConstantsFit := by
  intro function member instr inside value isValue
  have acts := ((expressible function member).instrs instr inside).action
  unfold Instr.literal? at isValue
  unfold Instr.ty?
  split at isValue
  · rename_i dest ty literal isConst
    rw [isConst] at acts ⊢
    obtain rfl := Option.some.inj isValue
    exact congrArg some acts.1.symm
  · cases isValue

/-- Programs of functions that may stand in them are read back if and only if constants have the
types that are declared for them. -/
theorem Program.ofText_toText_eq_iff (faithful : layer.Faithful exact)
    (nodup : (program.functions.map Func.name).Nodup)
    (admitted : ∀ function ∈ program.functions, function.signature.Readable ∧
      function.Admitted (readable exact (program.functions.map Func.name) kind)) :
    ofText layer (program.toText layer) = .ok program ↔ program.ConstantsFit := by
  constructor
  · exact fun read => (readable_of_ofText faithful read).1.constantsFit
  · intro fit
    -- Only a constant can be written with one type and read back with another.
    have expressible : program.Expressible := by
      intro function member
      obtain ⟨outside, may⟩ := admitted function member
      refine ⟨fun instr inside => ?_, outside.pos⟩
      obtain ⟨acts, pos, key⟩ := may.instrs instr inside
      refine ⟨?_, pos, key⟩
      cases isAction : instr.action with
      | const dest ty value =>
        have fits := fit function member instr inside
        unfold Instr.literal? Instr.ty? at fits
        rw [isAction] at acts fits
        exact ⟨(Option.some.inj (fits value rfl)).symm, acts.2.1.1⟩
      | compute op dest ty operands | effect op operands =>
        rw [isAction] at acts
        exact acts.1
      | label name => trivial
    have shallow : program.Shallow := by
      intro function member
      obtain ⟨outside, may⟩ := admitted function member
      refine ⟨may.params, outside.returnType, fun instr inside ty isTy => ?_⟩
      have acts := (may.instrs instr inside).action
      unfold Instr.ty? at isTy
      cases isAction : instr.action with
      | const dest declared value =>
        rw [isAction] at acts isTy
        obtain rfl := Option.some.inj isTy
        exact acts.1
      | compute op dest declared operands =>
        rw [isAction] at acts isTy
        obtain rfl := Option.some.inj isTy
        exact acts.2.1
      | effect op operands | label name =>
        rw [isAction] at isTy
        cases isTy
    have floats : program.FloatsExact exact := by
      intro function member instr inside dest ty value isConst
      have acts := ((admitted function member).2.instrs instr inside).action
      rw [isConst] at acts
      exact acts.2.1.2 value rfl
    -- A discipline that is readable lets calls name only functions of the program.
    have links : program.checkLinkage = .ok () := by
      refine checkLinkage_eq_ok_iff.2 ⟨nodup, fun call isCall => ?_⟩
      obtain ⟨function, member, isCall⟩ := List.mem_flatMap.1 isCall
      obtain ⟨instr, isInstr, isCall⟩ := List.mem_flatMap.1 isCall
      obtain ⟨callee, called, rfl⟩ := List.mem_map.1 isCall
      obtain ⟨inside, calls⟩ := List.mem_filter.1 isInstr
      have acts := ((admitted function member).2.instrs instr inside).action
      unfold Instr.op? at calls
      unfold Instr.funcs at called
      cases isAction : instr.action with
      | compute op dest ty operands =>
        rw [isAction] at acts calls called
        obtain rfl : op = .call := by simpa [Action.op?] using calls
        exact acts.2.2 rfl callee called
      | effect op operands =>
        rw [isAction] at acts calls called
        obtain rfl : op = .call := by simpa [Action.op?] using calls
        exact acts.2 rfl callee called
      | const dest ty value | label name =>
        rw [isAction] at called
        cases called
    exact ofText_toText faithful expressible links shallow floats

/-! ## Programs that were read -/

section Read

variable (expressible : program.Expressible) (shallow : program.Shallow)
  (links : program.checkLinkage = .ok ()) (floats : program.FloatsExact exact)

include expressible shallow links floats

/-- The instructions of a program that was read may stand in it. -/
theorem Program.admitted_of_read (kind : Ty → Ty) : ∀ function ∈ program.functions,
    function.Admitted (readable exact (program.functions.map Func.name) kind) := by
  intro function member
  refine ⟨(shallow function member).params, fun instr inside => ?_⟩
  obtain ⟨acts, pos, key⟩ := (expressible function member).instrs instr inside
  have deep := (shallow function member).instrs instr inside
  have calls : instr.op? = some .call → ∀ callee ∈ instr.funcs,
      callee ∈ program.functions.map Func.name ∨ callee ∈ intrinsics := fun isCall callee called =>
    (checkLinkage_eq_ok_iff.1 links).2 _ (mem_calls member inside isCall called)
  unfold Instr.ty? at deep
  unfold Instr.op? Instr.funcs at calls
  refine ⟨?_, pos, key⟩
  cases isAction : instr.action with
  | const dest ty value =>
    rw [isAction] at acts deep
    refine ⟨deep ty rfl, ⟨acts.2, fun number isFloat => ?_⟩, congrArg kind acts.1⟩
    exact floats function member instr inside dest ty number (by rw [isAction, isFloat])
  | compute op dest ty operands =>
    rw [isAction] at acts deep calls
    exact ⟨acts, deep ty rfl, fun isCall => calls (congrArg some isCall)⟩
  | effect op operands =>
    rw [isAction] at acts calls
    exact ⟨acts, fun isCall => calls (congrArg some isCall)⟩
  | label name => trivial

/-- The instructions of a well-formed function of a program that was read may stand in it together
if their types agree. -/
theorem Program.conforms_of_read {function : Func} (member : function ∈ program.functions)
    (checked : function.Checked) {types : String → Ty}
    (params : ∀ param ∈ function.params, kind (types param.name) = kind param.ty)
    (typed : ∀ instr ∈ function.instrs, instr.action.Typed kind types) :
    function.Conforms (readable exact (program.functions.map Func.name) kind)
      fun var => some (kind (types var)) := by
  have admitted := admitted_of_read expressible shallow links floats kind function member
  refine ⟨fun param isParam => ⟨admitted.params param isParam, congrArg some (params param isParam)⟩,
    fun instr inside => ?_⟩
  obtain ⟨acts, pos, key⟩ := admitted.instrs instr inside
  have agrees := typed instr inside
  have instrChecked : instr.Checked := checked.instrs instr inside
  -- Only a call names functions.
  have conform : ∀ (op : Opcode) (operands : Operands), operands.Fit op →
      (op = .call → ∀ callee ∈ operands.funcs,
        (readable exact (program.functions.map Func.name) kind).callees callee) →
      operands.Conform (readable exact (program.functions.map Func.name) kind)
        fun var => some (kind (types var)) := by
    refine fun op operands fit calls => ⟨fun callee called => ?_, fun _ _ => rfl⟩
    by_cases isCall : op = .call
    · exact calls isCall callee called
    · have none := fit.funcs_length
      rw [if_neg isCall, List.length_eq_zero_iff] at none
      rw [none] at called
      cases called
  refine ⟨?_, pos, key⟩
  cases isAction : instr.action with
  | const dest ty value =>
    rw [isAction] at acts agrees
    exact .const acts.1 (congrArg some agrees) acts.2.1 acts.2.2
  | compute op dest ty operands =>
    rw [isAction] at acts agrees
    obtain ⟨_, notConst, fit⟩ := (Instr.checked_compute_iff isAction).1 instrChecked
    obtain ⟨isKind, isResult, areCarried⟩ := agrees
    refine .compute notConst acts.2.1 (congrArg some isKind) (conform op operands fit acts.2.2)
      ⟨isResult, fun arg isArg => congrArg some (areCarried arg isArg), fun carries empty => ?_,
        fun isPhi empty => ?_⟩
    · cases op with
      | id => simpa [empty] using fit.args_length 1 rfl
      | ptradd => simpa [empty] using fit.args_length 2 rfl
      | phi => exact fit.args_ne_nil rfl empty
      | _ => cases carries
    · obtain rfl := isPhi
      have none := fit.labels_args rfl
      rw [empty] at none
      exact fit.args_ne_nil rfl (List.eq_nil_of_length_eq_zero none.symm)
  | effect op operands =>
    rw [isAction] at acts
    obtain ⟨_, fit, _⟩ := (Instr.checked_effect_iff isAction).1 instrChecked
    exact .effect acts.1 (conform op operands fit acts.2)
  | label name => exact .label name

/-- What becomes of a function of a program that was read may stand in the program if its types
agree. -/
theorem Program.admitted_outcomeOf {settings : Settings} {function : Func}
    (member : function ∈ program.functions) (typed : function.Typed kind) {output : Func}
    {failure : Option Error}
    (comes : Optimizer.outcomeOf settings function = .ok (output, failure)) :
    output.signature.Readable ∧
      output.Admitted (readable exact (program.functions.map Func.name) kind) := by
  refine ⟨?_, ?_⟩
  · rw [(Optimizer.outcomeOf_spec comes).1]
    exact ⟨(shallow function member).returnType, (expressible function member).pos⟩
  · obtain ⟨types, params, instrs⟩ := typed
    rcases Optimizer.outcomeOf_finished
        (FlowGraph.Tidy (readable exact (program.functions.map Func.name) kind))
        (FlowGraph.Tidy (readable exact (program.functions.map Func.name) kind))
        (FlowGraph.Admitted (readable exact (program.functions.map Func.name) kind))
        (fun graph log built => by
          obtain ⟨_, isChecked, _⟩ := Attempt.bind_eq_ok.1 built
          exact FlowGraph.tidy_build (conforms_of_read expressible shallow links floats member
            (Func.checked_of_check isChecked) params instrs) built)
        (fun _ _ _ tidy done => Ssa.tidy_construct tidy done) (fun _ => id)
        (fun _ => settings.schedule.kept_run _ fun pass _ => pass.tidy_run)
        (fun _ _ _ tidy done => Ssa.admitted_destruct tidy.orderly done)
        (fun _ tidy => tidy.orderly.admitted) comes with ⟨_, graph, admitted, flat⟩ | ⟨_, rfl⟩
    · exact admitted.flatten flat
    · exact admitted_of_read expressible shallow links floats kind _ member

/-- The functions of an optimized program may stand in it if their types agree. -/
theorem Optimizer.admitted_run {settings : Settings} {optimized : Optimized}
    (typed : ∀ function ∈ program.functions, function.Typed kind)
    (optimizes : run settings program = .ok optimized) :
    (optimized.program.functions.map Func.name).Nodup ∧
      ∀ output ∈ optimized.program.functions, output.signature.Readable ∧
        output.Admitted (readable exact (optimized.program.functions.map Func.name) kind) := by
  rcases manages_separate settings links with ⟨_, optimizesToo, separate⟩ | ⟨failed, _⟩
  · obtain rfl := Except.ok.inj (optimizes.symm.trans optimizesToo)
    have names : optimized.program.functions.map Func.name = program.functions.map Func.name := by
      have signatures := congrArg (List.map Signature.name) separate.signatures
      rw [List.map_map, List.map_map] at signatures
      exact signatures
    rw [names]
    refine ⟨Program.nodup_of_checkLinkage links, fun output isOutput => ?_⟩
    obtain ⟨function, member, failure, comes⟩ := exists_of_forall₂_right separate.outputs isOutput
    exact Program.admitted_outcomeOf expressible shallow links floats member (typed function member)
      comes
  · rw [failed] at optimizes
    cases optimizes

end Read

end

namespace Optimizer

/-- A program that was read, whose floating-point constants are printed exactly, and that is optimized
is read back from what is printed for it if and only if constants have the types that are declared for
them. They do, and it is, if the variables of each function have types that agree with the declared
ones. -/
theorem ofText_toText_run {layer : TextLayer} {exact : Json.Number → Prop}
    (faithful : layer.Faithful exact) (settings : Settings) {text : String} {program : Program}
    {optimized : Optimized} (read : Program.ofText layer text = .ok program)
    (floats : program.FloatsExact exact) (optimizes : run settings program = .ok optimized) :
    (Program.ofText layer (optimized.program.toText layer) = .ok optimized.program ↔
      optimized.program.ConstantsFit) ∧
    (program.Typed → optimized.program.ConstantsFit ∧
      Program.ofText layer (optimized.program.toText layer) = .ok optimized.program) := by
  obtain ⟨expressible, shallow, links⟩ := Program.readable_of_ofText faithful read
  have readsBack : Program.ofText layer (optimized.program.toText layer) = .ok optimized.program ↔
      optimized.program.ConstantsFit := by
    -- No type is told from any other.
    obtain ⟨nodup, admitted⟩ := admitted_run expressible shallow links floats
      (fun function _ => function.typed_of_const .int) optimizes
    exact Program.ofText_toText_eq_iff faithful nodup admitted
  refine ⟨readsBack, fun typed => ?_⟩
  have fit : optimized.program.ConstantsFit := by
    obtain ⟨_, admitted⟩ := admitted_run expressible shallow links floats typed optimizes
    intro output isOutput instr inside value isValue
    have acts := ((admitted output isOutput).2.instrs instr inside).action
    unfold Instr.literal? at isValue
    unfold Instr.ty?
    split at isValue
    · rename_i isConst
      rw [isConst] at acts ⊢
      obtain rfl := Option.some.inj isValue
      exact congrArg some acts.2.2.symm
    · cases isValue
  exact ⟨fit, readsBack.2 fit⟩

/-- A program that was read, whose floating-point constants are read back, and that is optimized is
read back from what is written for it if and only if constants have the types that are declared for
them. They do, and it is, if the variables of each function have types that agree with the declared
ones. -/
theorem run_readsBack (settings : Settings) {text : String} {program : Program}
    {optimized : Optimized} (read : Program.ofJson text = .ok program)
    (floats : program.FloatsReadBack) (optimizes : run settings program = .ok optimized) :
    (Program.ofJson optimized.program.toJsonText = .ok optimized.program ↔
      optimized.program.ConstantsFit) ∧
    (program.Typed → optimized.program.ConstantsFit ∧
      Program.ofJson optimized.program.toJsonText = .ok optimized.program) :=
  ofText_toText_run TextLayer.faithful_standard settings read floats optimizes

/-- A program that prints what an operation makes of one and one, as a truth value. -/
def combines (op : Opcode) : Program where
  functions := [{
    name := "main"
    instrs := [.const "a" .int (.int 1), .compute op "x" .bool ["a", "a"],
      { action := .effect .call { args := ["x"], funcs := ["print"] } }, .ret none] }]

/-- The program can be read. -/
theorem ofJson_combines (op : Opcode) (notConst : op ≠ .const) (notCall : op ≠ .call) :
    Program.ofJson (combines op).toJsonText = .ok (combines op) ∧ (combines op).FloatsReadBack := by
  have floats : (combines op).FloatsReadBack := by
    refine List.forall_mem_singleton.2 ?_
    simp only [List.forall_mem_cons]
    exact ⟨fun _ _ _ isConst => Literal.noConfusion (Action.const.inj isConst).2.2, nofun, nofun,
      nofun, nofun⟩
  have low : 0 < keyLimit := by decide
  refine ⟨Program.ofText_toText TextLayer.faithful_standard ?_ ?_ ?_ floats, floats⟩
  · refine List.forall_mem_singleton.2 ⟨?_, nofun⟩
    simp only [List.forall_mem_cons]
    exact ⟨⟨⟨rfl, trivial⟩, nofun, low⟩, ⟨notConst, nofun, low⟩,
      ⟨Opcode.noConfusion, nofun, low⟩, ⟨Opcode.noConfusion, nofun, low⟩, nofun⟩
  · cases op <;> first | contradiction | rfl
  · refine List.forall_mem_singleton.2 ⟨nofun, nofun, ?_⟩
    simp only [List.forall_mem_cons]
    refine ⟨fun ty isTy => ?_, fun ty isTy => ?_, nofun, nofun, nofun⟩
    all_goals
      obtain rfl := Option.some.inj isTy
      decide

/-- What comes out of a comparison is read back. -/
theorem run_readsBack_combines : (combines .lt).Typed ∧
    ∃ text optimized, Program.ofJson text = .ok (combines .lt) ∧ (combines .lt).FloatsReadBack ∧
      run {} (combines .lt) = .ok optimized ∧
        Program.ofJson optimized.program.toJsonText = .ok optimized.program := by
  have typed : (combines .lt).Typed := by
    refine List.forall_mem_singleton.2 ⟨fun var => if var = "x" then .bool else .int, nofun, ?_⟩
    simp only [List.forall_mem_cons]
    refine ⟨rfl, ⟨rfl, fun result isResult => ?_, nofun⟩, trivial, trivial, nofun⟩
    obtain rfl := Option.some.inj isResult
    rfl
  obtain ⟨read, floats⟩ := ofJson_combines .lt Opcode.noConfusion Opcode.noConfusion
  exact ⟨typed, _, _, read, floats, rfl, ((run_readsBack {} read floats rfl).2 typed).2⟩

/-- A sum under the type of truth values comes out as a constant that is none, and the program is not
read back. Nor are all numbers that are read read back from what is written for them. -/
theorem not_run_readsBack :
    (∃ text program optimized, Program.ofJson text = .ok program ∧ program.FloatsReadBack ∧
      run {} program = .ok optimized ∧ ¬optimized.program.ConstantsFit ∧
        Program.ofJson optimized.program.toJsonText ≠ .ok optimized.program) ∧
    ∃ text number, Json.parse text = .ok (.number number) ∧ ¬number.ReadsBack := by
  refine ⟨?_, "13986425043813758e-16", .float ⟨4608977745034203413⟩, rfl, ?_⟩
  · obtain ⟨read, floats⟩ := ofJson_combines .add Opcode.noConfusion Opcode.noConfusion
    refine ⟨_, _, _, read, floats, rfl, by decide, fun readsBack => ?_⟩
    have fit := (Program.readable_of_ofText TextLayer.faithful_standard readsBack).1.constantsFit
    revert fit
    decide
  · intro readsBack
    have other : Json.parse "1.3986425043813757" =
        .ok (.number (.float ⟨4608977745034203412⟩)) := rfl
    have text : (Json.Number.float ⟨4608977745034203413⟩).render = "1.3986425043813757" := rfl
    rw [Json.Number.ReadsBack, text, other] at readsBack
    cases readsBack

end Optimizer

end Midend
