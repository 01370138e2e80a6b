import Midend.Proofs.FlowGraph.WellFormed
import Midend.Proofs.Program.TextLayer

/-! # Programs as JSON and back

What a faithful text layer prints for a program is read as that program, keys, positions and empty lists
included, if the program fits together and can be written (`Program.Expressible`), its types are not
nested too deep for a reader (`Program.Shallow`) and its floating-point constants are printed exactly
(`Program.ofText_toText`). Every program that was read can be written and is not nested too deep
(`Program.readable_of_ofText`). -/

namespace Midend

/-! ## What can be written -/

/-- Whether a constant is no infinite and no invalid number. -/
def Literal.Finite : Literal → Prop
  | .float value => value.isFinite = true
  | _ => True

/-- Whether the fields of an instruction tell an action apart from all others: constants are of their
type and finite, and nothing else is called a constant. -/
def Action.Expressible : Action → Prop
  | .const _ ty value => value.ty = ty ∧ value.Finite
  | .compute op _ _ _ => op ≠ .const
  | .effect op _ => op ≠ .const
  | .label _ => True

/-- Whether an instruction can be written. -/
structure Instr.Expressible (instr : Instr) : Prop where
  /-- The fields tell what it does. -/
  action : instr.action.Expressible
  /-- Its position fits. -/
  pos : ∀ position ∈ instr.pos, position.Fits
  /-- Its key fits. -/
  key : instr.key < keyLimit

/-- Whether a function can be written. -/
structure Func.Expressible (function : Func) : Prop where
  /-- Its instructions can be written. -/
  instrs : ∀ instr ∈ function.instrs, instr.Expressible
  /-- Its position fits. -/
  pos : ∀ position ∈ function.pos, position.Fits

/-- Whether a program can be written. -/
def Program.Expressible (program : Program) : Prop :=
  ∀ function ∈ program.functions, function.Expressible

/-- Whether the types of a function are nested no deeper than a reader goes inside a program. -/
structure Func.Shallow (function : Func) : Prop where
  /-- Types of parameters stand in five lists and objects. -/
  params : ∀ param ∈ function.params, param.ty.depth + 5 ≤ Json.maxNesting
  /-- The type of the result stands in three. -/
  returnType : ∀ ty ∈ function.returnType, ty.depth + 3 ≤ Json.maxNesting
  /-- Types of variables stand in five. -/
  instrs : ∀ instr ∈ function.instrs, ∀ ty ∈ instr.ty?, ty.depth + 5 ≤ Json.maxNesting

/-- Whether the types of a program are nested no deeper than a reader goes. -/
def Program.Shallow (program : Program) : Prop :=
  ∀ function ∈ program.functions, function.Shallow

/-- Whether the floating-point constants of a program are among the given numbers. -/
def Program.FloatsExact (exact : Json.Number → Prop) (program : Program) : Prop :=
  ∀ function ∈ program.functions, ∀ instr ∈ function.instrs, ∀ dest ty value,
    instr.action = .const dest ty (.float value) → exact (.float value)

/-- Whether what is written for the floating-point constants of a program is read as them. -/
def Program.FloatsReadBack (program : Program) : Prop := program.FloatsExact Json.Number.ReadsBack

/-! ## Constants -/

/-- What holds of integers of 64 bits, and of the number that a constant is, holds of each number in
it. -/
theorem Literal.eachNumber_toJson {holds : Json.Number → Prop} {literal : Literal}
    (integer : ∀ value : Int, -(Nat.pow 2 63 : Int) ≤ value → value < Nat.pow 2 64 →
      holds (.integer value))
    (float : ∀ value, literal = .float value → value.isFinite = true → holds (.float value)) :
    literal.toJson.EachNumber holds := by
  cases literal with
  | int value =>
    have low := Int64.le_toInt value
    have high := Int64.toInt_lt value
    refine integer _ low ?_
    show value.toInt < 18446744073709551616
    omega
  | bool value => trivial
  | float value =>
    rw [toJson]
    split
    · exact float value rfl ‹_›
    · trivial
  | char value => trivial

/-- Constants that are finite are read as written. -/
theorem Literal.ofJson_toJson {literal : Literal} (finite : literal.Finite) :
    Literal.ofJson literal.toJson literal.ty = .ok literal := by
  have read : Literal.ofJson? literal.ty literal.toJson = some literal := by
    cases literal with
    | int value =>
      have fits : Int64.minValue.toInt ≤ value.toInt ∧ value.toInt ≤ Int64.maxValue.toInt :=
        ⟨Int64.minValue_le_toInt value, Int64.toInt_le value⟩
      simp only [toJson, Json.ofInt, ty, ofJson?, Json.Number.toInt64?]
      rw [if_pos fits, Int64.ofInt_toInt]
      rfl
    | bool value => rfl
    | float value =>
      rw [toJson, if_pos (show value.isFinite = true from finite)]
      rfl
    | char value => simp [toJson, ty, ofJson?]
  rw [ofJson, read]

/-- Only constants that are not finite are written as nothing. -/
theorem Literal.toJson_ne_null {literal : Literal} (finite : literal.Finite) :
    literal.toJson ≠ .null := by
  cases literal with
  | float value =>
    rw [toJson, if_pos (show value.isFinite = true from finite)]
    exact nofun
  | _ => exact nofun

/-! ## Instructions -/

/-- Operations are known by their names. -/
theorem Opcode.ofName?_name (op : Opcode) : ofName? op.name = some op := by
  cases op <;> rfl

/-- The fields that are written for an action tell it apart. -/
theorem Instr.toAction_toFields {instr : Instr} (expressible : instr.action.Expressible) :
    instr.toFields.toAction = .ok instr.action := by
  obtain ⟨action, pos, key⟩ := instr
  cases action with
  | label name => rfl
  | const dest ty value =>
    obtain ⟨rfl, finite⟩ := expressible
    have read := Literal.ofJson_toJson finite
    unfold InstrFields.toAction
    show (do return Action.const dest value.ty (← Literal.ofJson value.toJson value.ty)) = _
    rw [read]
    rfl
  | compute op dest ty operands =>
    have notConst : op ≠ .const := expressible
    simp [InstrFields.toAction, Instr.toFields, Action.label?, Action.op?, Action.dest?, Action.ty?,
      Action.operands, requireField, Opcode.ofName?_name, notConst]
  | effect op operands =>
    have notConst : op ≠ .const := expressible
    simp [InstrFields.toAction, Instr.toFields, Action.label?, Action.op?, Action.dest?,
      Action.operands, requireField, Opcode.ofName?_name, notConst]

/-- The fields that are written for instructions give the instructions, whatever keys are left. -/
theorem toInstrs_toFields {instrs : List Instr}
    (expressible : ∀ instr ∈ instrs, instr.action.Expressible) (nextKey : Nat) :
    ∃ next, InstrFields.toInstrs nextKey (instrs.map Instr.toFields) = .ok (instrs, next) := by
  induction instrs generalizing nextKey with
  | nil => exact ⟨nextKey, rfl⟩
  | cons instr instrs instrsIH =>
    rw [List.forall_mem_cons] at expressible
    obtain ⟨next, others⟩ := instrsIH expressible.2 (max nextKey (min (instr.key + 1) (keyLimit - 1)))
    refine ⟨next, ?_⟩
    -- The key is written, so that none of those which are left is taken.
    rw [List.map_cons, InstrFields.toInstrs, Instr.toAction_toFields expressible.1, Attempt.ok_bind]
    show (InstrFields.toInstrs (max nextKey (min (instr.key + 1) (keyLimit - 1)))
      (instrs.map Instr.toFields) >>= _) = _
    rw [others]
    rfl

/-! ## Functions and programs -/

/-- The fields that are written for functions give the functions, whatever keys are left. -/
theorem toFuncs_toFields {functions : List Func}
    (expressible : ∀ function ∈ functions, function.Expressible) (nextKey : Nat) :
    FuncFields.toFuncs nextKey (functions.map Func.toFields) = .ok functions := by
  induction functions generalizing nextKey with
  | nil => rfl
  | cons function functions functionsIH =>
    rw [List.forall_mem_cons] at expressible
    obtain ⟨next, isRead⟩ := toInstrs_toFields
      (fun instr member => (expressible.1.instrs instr member).action) nextKey
    rw [List.map_cons, FuncFields.toFuncs,
      show (Func.toFields function).instrs = function.instrs.map Instr.toFields from rfl, isRead,
      Attempt.ok_bind]
    dsimp only
    rw [functionsIH expressible.2]
    rfl

/-- The fields of instructions that can be written fit. -/
theorem Instr.Expressible.fits {instr : Instr} (expressible : instr.Expressible) :
    instr.toFields.Fits := by
  refine ⟨fun document isValue => ?_, expressible.pos, fun key isKey => ?_⟩
  · obtain ⟨value, _, rfl⟩ := Option.map_eq_some_iff.1 isValue
    exact Literal.eachNumber_toJson (fun _ _ _ => trivial) fun _ _ finite => finite
  · obtain rfl := Option.some.inj isKey
    exact expressible.key

/-- The fields of functions that can be written fit. -/
theorem Func.Expressible.fits {function : Func} (expressible : function.Expressible) :
    function.toFields.Fits := by
  refine ⟨fun fields isFields => ?_, expressible.pos⟩
  obtain ⟨instr, member, rfl⟩ := List.mem_map.1 isFields
  exact (expressible.instrs instr member).fits

/-- The values in the fields of a function that can be written are printed exactly if its
floating-point constants are. -/
theorem Func.Expressible.exact {exact : Json.Number → Prop} {function : Func}
    (expressible : function.Expressible)
    (integer : ∀ value : Int, -(Nat.pow 2 63 : Int) ≤ value → value < Nat.pow 2 64 →
      exact (.integer value))
    (floats : ∀ instr ∈ function.instrs, ∀ dest ty value,
      instr.action = .const dest ty (.float value) → exact (.float value)) :
    function.toFields.Exact exact := by
  intro fields isFields document isValue
  obtain ⟨instr, member, rfl⟩ := List.mem_map.1 isFields
  have acts := (expressible.instrs instr member).action
  cases isAction : instr.action with
  | const dest ty literal =>
    rw [Instr.toFields, isAction] at isValue
    rw [isAction] at acts
    obtain rfl := Option.some.inj isValue
    refine ⟨Literal.toJson_ne_null acts.2, Literal.eachNumber_toJson integer fun value isFloat _ => ?_⟩
    exact floats instr member dest ty value (by rw [isAction, isFloat])
  | label | compute | effect =>
    rw [Instr.toFields, isAction] at isValue
    cases isValue

/-! ## Nesting -/

/-- Types are nested as deep as they go through pointers. -/
theorem Ty.nesting_toJson (ty : Ty) : ty.toJson.nesting = ty.depth := by
  induction ty with
  | ptr pointee pointeeIH => simp [toJson, Json.nesting, Json.nestingOfMembers, depth, pointeeIH]
  | _ => rfl

section

open Json

/-- A member for a value that may be absent is nested as deep as the value. -/
theorem nesting_optionalMember {α : Type} {name : String} {value : Option α} {encode : α → Json}
    {depth : Nat} (shallow : ∀ found ∈ value, (encode found).nesting ≤ depth) :
    ∀ member ∈ optionalMember name value encode, member.2.nesting ≤ depth := by
  intro member isMember
  obtain ⟨found, isFound, rfl⟩ := List.mem_map.1 isMember
  exact shallow found (Option.mem_toList.1 isFound)

/-- A list of texts is nested once. -/
theorem nesting_listMember (name : String) (texts : List String) :
    ∀ member ∈ listMember name texts, member.2.nesting ≤ 1 := by
  intro member isMember
  unfold listMember at isMember
  split at isMember
  · cases isMember
  · rw [List.mem_singleton.1 isMember]
    refine Nat.succ_le_succ (nestingOfElements_le_iff.2 fun element isElement => ?_)
    obtain ⟨text, _, rfl⟩ := List.mem_map.1 isElement
    exact Nat.le_refl _

/-- Positions are nested once. -/
theorem nesting_position (position : Position) : position.toJson.nesting ≤ 1 := by
  simp [Position.toJson, nesting, nestingOfMembers, ofNat, ofInt]

/-- Constants are not nested. -/
theorem nesting_literal (literal : Literal) : literal.toJson.nesting = 0 := by
  cases literal with
  | float value =>
    rw [Literal.toJson]
    split <;> rfl
  | _ => rfl

/-- Instructions are nested once more than their types and lists. -/
theorem nesting_instr {instr : Instr} {depth : Nat} (some : 1 ≤ depth)
    (shallow : ∀ ty ∈ instr.ty?, ty.depth ≤ depth) : instr.toFields.toJson.nesting ≤ depth + 1 := by
  refine Nat.succ_le_succ (nestingOfMembers_le_iff.2 ?_)
  simp only [List.forall_mem_append]
  have lists : ∀ name texts, ∀ member ∈ listMember name texts, member.2.nesting ≤ depth :=
    fun name texts member isMember => (nesting_listMember name texts member isMember).trans some
  refine ⟨nesting_optionalMember fun _ _ => Nat.zero_le _,
    nesting_optionalMember fun _ _ => Nat.zero_le _, nesting_optionalMember fun _ _ => Nat.zero_le _,
    nesting_optionalMember fun ty isTy => ?_, nesting_optionalMember fun value isValue => ?_,
    lists _ _, lists _ _, lists _ _,
    nesting_optionalMember fun position _ => (nesting_position position).trans some,
    nesting_optionalMember fun _ _ => Nat.zero_le _⟩
  · rw [ty.nesting_toJson]
    exact shallow ty isTy
  · obtain ⟨literal, _, rfl⟩ := Option.map_eq_some_iff.1 isValue
    exact (nesting_literal literal).trans_le (Nat.zero_le _)

/-- Functions are nested no deeper than a reader goes inside a program if their types are not. -/
theorem nesting_function {function : Func} (shallow : function.Shallow) :
    function.toFields.toJson.nesting + 2 ≤ maxNesting := by
  have params : ∀ document ∈ function.params.map Param.toJson, document.nesting ≤ 123 := by
    intro document member
    obtain ⟨param, isParam, rfl⟩ := List.mem_map.1 member
    have bound : param.ty.depth + 5 ≤ 127 := shallow.params param isParam
    simp only [Param.toJson, nesting, nestingOfMembers, param.ty.nesting_toJson]
    omega
  have instrs : ∀ document ∈ function.toFields.instrs.map InstrFields.toJson,
      document.nesting ≤ 123 := by
    intro document member
    obtain ⟨fields, isFields, rfl⟩ := List.mem_map.1 member
    obtain ⟨instr, isInstr, rfl⟩ := List.mem_map.1 isFields
    refine nesting_instr (by decide) fun ty isTy => ?_
    have bound : ty.depth + 5 ≤ 127 := shallow.instrs instr isInstr ty isTy
    omega
  -- They stand in a list each, and the type of the result stands beside the lists.
  have members : function.toFields.toJson.nesting ≤ 124 + 1 := by
    refine Nat.succ_le_succ (nestingOfMembers_le_iff.2 ?_)
    simp only [List.forall_mem_cons, List.forall_mem_append]
    refine ⟨Nat.zero_le _, ?_, nesting_optionalMember fun ty isTy => ?_,
      Nat.succ_le_succ (nestingOfElements_le_iff.2 instrs),
      nesting_optionalMember fun position _ => (nesting_position position).trans (by decide)⟩
    · split
      · exact fun member none => absurd none List.not_mem_nil
      · exact List.forall_mem_singleton.2 (Nat.succ_le_succ (nestingOfElements_le_iff.2 params))
    · have bound : ty.depth + 3 ≤ 127 := shallow.returnType ty isTy
      rw [ty.nesting_toJson]
      omega
  show function.toFields.toJson.nesting + 2 ≤ 127
  omega

/-- What is written for a program is nested no deeper than a reader goes if its types are not. -/
theorem nesting_program {program : Program} (shallow : program.Shallow) :
    program.toJson.nesting ≤ maxNesting := by
  have functions : ∀ document ∈ (program.functions.map Func.toFields).map FuncFields.toJson,
      document.nesting ≤ 125 := by
    intro document member
    obtain ⟨fields, isFields, rfl⟩ := List.mem_map.1 member
    obtain ⟨function, isFunction, rfl⟩ := List.mem_map.1 isFields
    have bound : function.toFields.toJson.nesting + 2 ≤ 127 :=
      nesting_function (shallow function isFunction)
    omega
  have list := nestingOfElements_le_iff.2 functions
  simp only [Program.toJson, FuncFields.document, nesting, nestingOfMembers]
  show _ ≤ 127
  omega

end

/-! ## Programs that were read -/

/-- A constant that is read is of the type that was wanted, and finite. -/
theorem Literal.ofJson_spec {document : Json} {ty : Ty} {literal : Literal}
    (finite : document.EachNumber Json.Number.Finite)
    (read : Literal.ofJson document ty = .ok literal) : literal.ty = ty ∧ literal.Finite := by
  unfold Literal.ofJson at read
  split at read
  · rename_i isLiteral
    cases read
    unfold ofJson? at isLiteral
    split at isLiteral
    · obtain ⟨value, _, rfl⟩ := Option.map_eq_some_iff.1 isLiteral
      exact ⟨rfl, trivial⟩
    · cases isLiteral
      exact ⟨rfl, trivial⟩
    · rename_i number
      cases isLiteral
      cases number with
      | integer value => exact ⟨rfl, Binary64.isFinite_ofInt value⟩
      | float value => exact ⟨rfl, finite⟩
    · split at isLiteral
      · cases isLiteral
        exact ⟨rfl, trivial⟩
      · cases isLiteral
    · cases isLiteral
  · cases read

/-- A field that is wanted is there. -/
theorem requireField_eq_ok {α : Type} {field : Option α} {complaint : String} {value : α} :
    requireField field complaint = .ok value ↔ field = some value := by
  cases field <;> simp [requireField]

/-- The fields of an instruction are those of a label, a constant, or an operation with or without a
variable that it writes. -/
theorem InstrFields.toAction_cases {fields : InstrFields} {action : Action}
    (read : fields.toAction = .ok action) :
    (∃ name, action = .label name) ∨
    (∃ dest ty document literal, fields.ty = some ty ∧ fields.value = some document ∧
      Literal.ofJson document ty = .ok literal ∧ action = .const dest ty literal) ∨
    (∃ op dest ty, op ≠ .const ∧ fields.ty = some ty ∧
      action = .compute op dest ty fields.operands) ∨
    ∃ op, op ≠ .const ∧ action = .effect op fields.operands := by
  unfold toAction at read
  split at read
  · rename_i name _
    split at read
    · cases read
    · cases read
      exact .inl ⟨name, rfl⟩
  · obtain ⟨name, _, read⟩ := Attempt.bind_eq_ok.1 read
    obtain ⟨op, _, read⟩ := Attempt.bind_eq_ok.1 read
    split at read
    · obtain ⟨dest, _, read⟩ := Attempt.bind_eq_ok.1 read
      obtain ⟨ty, isTy, read⟩ := Attempt.bind_eq_ok.1 read
      obtain ⟨document, isValue, read⟩ := Attempt.bind_eq_ok.1 read
      obtain ⟨literal, isLiteral, same⟩ := Attempt.bind_eq_ok.1 read
      cases same
      exact .inr (.inl ⟨dest, ty, document, literal, requireField_eq_ok.1 isTy,
        requireField_eq_ok.1 isValue, isLiteral, rfl⟩)
    · rename_i notConst
      split at read
      · rename_i dest _
        obtain ⟨ty, isTy, same⟩ := Attempt.bind_eq_ok.1 read
        cases same
        exact .inr (.inr (.inl ⟨op, dest, ty, notConst, requireField_eq_ok.1 isTy, rfl⟩))
      · cases read
        exact .inr (.inr (.inr ⟨op, notConst, rfl⟩))

/-- Actions that are read can be written. -/
theorem InstrFields.Fits.expressible {fields : InstrFields} (fits : fields.Fits) {action : Action}
    (read : fields.toAction = .ok action) : action.Expressible := by
  rcases toAction_cases read with ⟨name, rfl⟩ |
    ⟨dest, ty, document, literal, _, isValue, isLiteral, rfl⟩ | ⟨op, dest, ty, notConst, _, rfl⟩ |
    ⟨op, notConst, rfl⟩
  · trivial
  · exact Literal.ofJson_spec (fits.value document isValue) isLiteral
  · exact notConst
  · exact notConst

/-- Instructions that are read can be written. -/
theorem expressible_of_toInstrs {fields : List InstrFields} (fits : ∀ field ∈ fields, field.Fits)
    {nextKey next : Nat} (low : nextKey < keyLimit) {instrs : List Instr}
    (read : InstrFields.toInstrs nextKey fields = .ok (instrs, next)) :
    (∀ instr ∈ instrs, instr.Expressible) ∧ next < keyLimit := by
  induction fields generalizing nextKey instrs with
  | nil =>
    cases read
    exact ⟨fun instr none => absurd none List.not_mem_nil, low⟩
  | cons field fields fieldsIH =>
    rw [List.forall_mem_cons] at fits
    rw [InstrFields.toInstrs] at read
    obtain ⟨action, isAction, read⟩ := Attempt.bind_eq_ok.1 read
    obtain ⟨⟨others, last⟩, isOthers, same⟩ := Attempt.bind_eq_ok.1 read
    cases same
    have fitsKey : field.key.getD nextKey < keyLimit := by
      cases isKey : field.key with
      | none => exact low
      | some key => exact fits.1.key key isKey
    have stillLow : max nextKey (min (field.key.getD nextKey + 1) (keyLimit - 1)) < keyLimit := by
      omega
    obtain ⟨expressible, lastLow⟩ := fieldsIH fits.2 stillLow isOthers
    exact ⟨List.forall_mem_cons.2 ⟨⟨fits.1.expressible isAction, fits.1.pos, fitsKey⟩, expressible⟩,
      lastLow⟩

/-- Functions that are read can be written. -/
theorem expressible_of_toFuncs {fields : List FuncFields} (fits : ∀ field ∈ fields, field.Fits)
    {nextKey : Nat} (low : nextKey < keyLimit) {functions : List Func}
    (read : FuncFields.toFuncs nextKey fields = .ok functions) :
    ∀ function ∈ functions, function.Expressible := by
  induction fields generalizing nextKey functions with
  | nil =>
    cases read
    exact fun function none => absurd none List.not_mem_nil
  | cons field fields fieldsIH =>
    rw [List.forall_mem_cons] at fits
    rw [FuncFields.toFuncs] at read
    obtain ⟨⟨instrs, next⟩, isInstrs, read⟩ := Attempt.bind_eq_ok.1 read
    obtain ⟨others, isOthers, same⟩ := Attempt.bind_eq_ok.1 read
    cases same
    obtain ⟨expressible, stillLow⟩ := expressible_of_toInstrs fits.1.instrs low isInstrs
    exact List.forall_mem_cons.2 ⟨⟨expressible, fits.1.pos⟩, fieldsIH fits.2 stillLow isOthers⟩

/-- The type that an action declares is that of its fields. -/
theorem InstrFields.ty_of_toAction {fields : InstrFields} {action : Action}
    (read : fields.toAction = .ok action) : ∀ ty ∈ action.ty?, ty ∈ fields.ty := by
  rcases toAction_cases read with ⟨name, rfl⟩ | ⟨dest, ty, document, literal, isTy, _, _, rfl⟩ |
    ⟨op, dest, ty, _, isTy, rfl⟩ | ⟨op, _, rfl⟩
  · exact nofun
  · rw [isTy]
    exact fun _ => id
  · rw [isTy]
    exact fun _ => id
  · exact nofun

/-- Instructions do what their fields describe. -/
theorem forall₂_toInstrs {nextKey next : Nat} {fields : List InstrFields} {instrs : List Instr}
    (read : InstrFields.toInstrs nextKey fields = .ok (instrs, next)) :
    List.Forall₂ (fun field instr => field.toAction = .ok instr.action) fields instrs := by
  induction fields generalizing nextKey instrs with
  | nil =>
    cases read
    exact .nil
  | cons field fields fieldsIH =>
    rw [InstrFields.toInstrs] at read
    obtain ⟨action, isAction, read⟩ := Attempt.bind_eq_ok.1 read
    obtain ⟨⟨others, last⟩, isOthers, same⟩ := Attempt.bind_eq_ok.1 read
    cases same
    exact .cons isAction (fieldsIH isOthers)

/-- Functions with shallow fields are shallow. -/
theorem shallow_of_toFuncs {nextKey nesting : Nat} (few : nesting + 5 ≤ Json.maxNesting)
    {fields : List FuncFields} (shallow : ∀ field ∈ fields, field.Shallow nesting)
    {functions : List Func} (read : FuncFields.toFuncs nextKey fields = .ok functions) :
    ∀ function ∈ functions, function.Shallow := by
  induction fields generalizing nextKey functions with
  | nil =>
    cases read
    exact fun function none => absurd none List.not_mem_nil
  | cons field fields fieldsIH =>
    rw [List.forall_mem_cons] at shallow
    rw [FuncFields.toFuncs] at read
    obtain ⟨⟨instrs, next⟩, isInstrs, read⟩ := Attempt.bind_eq_ok.1 read
    obtain ⟨others, isOthers, same⟩ := Attempt.bind_eq_ok.1 read
    cases same
    refine List.forall_mem_cons.2 ⟨⟨fun param member => ?_, fun ty isTy => ?_,
      fun instr member ty isTy => ?_⟩, fieldsIH shallow.2 isOthers⟩
    · have deep := shallow.1.params param member
      omega
    · have deep := shallow.1.returnType ty isTy
      omega
    · obtain ⟨own, isOwn, isAction⟩ := exists_of_forall₂_right (forall₂_toInstrs isInstrs) member
      have deep := shallow.1.instrs own isOwn ty (InstrFields.ty_of_toAction isAction ty isTy)
      omega

/-! ## Texts -/

section

variable {layer : TextLayer} {exact : Json.Number → Prop} {text : String} {program : Program}

/-- Programs are read field by field, and then checked. -/
theorem Program.ofText_eq_ok : ofText layer text = .ok program ↔
    ∃ fields, layer.read text = .ok fields ∧
      FuncFields.toFuncs 1 fields = .ok program.functions ∧ program.checkLinkage = .ok () := by
  unfold ofText
  cases layer.read text with
  | error problem => simp
  | ok fields =>
    constructor
    · intro read
      obtain ⟨functions, isRead, read⟩ := Attempt.bind_eq_ok.1 read
      obtain ⟨_, links, same⟩ := Attempt.bind_eq_ok.1 read
      cases same
      exact ⟨fields, rfl, isRead, links⟩
    · rintro ⟨_, same, isRead, links⟩
      cases same
      exact Attempt.bind_eq_ok.2 ⟨_, isRead, Attempt.bind_eq_ok.2 ⟨(), links, rfl⟩⟩

variable (faithful : layer.Faithful exact)

include faithful

/-- A program that was read can be written, its types are nested no deeper than a reader goes, and
its functions fit together. -/
theorem Program.readable_of_ofText (read : ofText layer text = .ok program) :
    program.Expressible ∧ program.Shallow ∧ program.checkLinkage = .ok () := by
  obtain ⟨fields, isRead, isProgram, links⟩ := ofText_eq_ok.1 read
  exact ⟨expressible_of_toFuncs (faithful.fits text fields isRead) (by decide) isProgram,
    shallow_of_toFuncs (Nat.le_refl _) (faithful.shallow text fields isRead) isProgram, links⟩

/-- What is written for a program that can be written, fits together, has types that a reader can
follow and floating-point constants that are printed exactly is read as that program. -/
theorem Program.ofText_toText (expressible : program.Expressible)
    (links : program.checkLinkage = .ok ()) (shallow : program.Shallow)
    (floats : program.FloatsExact exact) : ofText layer (program.toText layer) = .ok program := by
  refine ofText_eq_ok.2 ⟨_, faithful.read_print _ (fun fields isFields => ?_)
    (nesting_program shallow), toFuncs_toFields expressible 1, links⟩
  obtain ⟨function, member, rfl⟩ := List.mem_map.1 isFields
  exact ⟨(expressible function member).fits,
    (expressible function member).exact faithful.integer (floats function member)⟩

end

/-- Programs that are read can be written, and what is written for a program that can be written, fits
together and has types that a reader can follow is read as that program. -/
theorem Program.ofJson_toJsonText :
    (∀ text program, Program.ofJson text = .ok program → program.Expressible) ∧
      ∀ program : Program, program.Expressible → program.checkLinkage = .ok () → program.Shallow →
        program.FloatsReadBack → Program.ofJson program.toJsonText = .ok program :=
  ⟨fun _ _ read => (readable_of_ofText TextLayer.faithful_standard read).1,
    fun _ expressible links shallow floats =>
      ofText_toText TextLayer.faithful_standard expressible links shallow floats⟩

/-- A program with a floating-point constant, a pointer and a source position. -/
def shiftAll : Program where
  functions := [{
    name := "shift"
    params := [⟨"cells", .ptr (.ptr .float)⟩]
    instrs := [.label "entry", (Instr.const "step" .float (.float ⟨0x3FF8000000000000⟩)).withKey 7,
      { action := .effect .call { args := ["cells", "step"], funcs := ["print"] } }, .ret none]
    pos := some ⟨3, 4294967295⟩ }]

/-- The program is read as it is written. -/
theorem ofJson_toJsonText_shiftAll : shiftAll.Expressible ∧ shiftAll.checkLinkage = .ok () ∧
    shiftAll.Shallow ∧ shiftAll.FloatsReadBack ∧
      Program.ofJson shiftAll.toJsonText = .ok shiftAll := by
  have expressible : shiftAll.Expressible := by
    refine List.forall_mem_singleton.2 ⟨?_, ?_⟩
    · simp only [List.forall_mem_cons]
      exact ⟨⟨trivial, nofun, by decide⟩, ⟨⟨rfl, rfl⟩, nofun, by decide⟩,
        ⟨Opcode.noConfusion, nofun, by decide⟩, ⟨Opcode.noConfusion, nofun, by decide⟩, nofun⟩
    · intro position isPos
      obtain rfl := Option.some.inj isPos
      exact ⟨by decide, by decide⟩
  have shallow : shiftAll.Shallow := by
    refine List.forall_mem_singleton.2 ⟨List.forall_mem_singleton.2 (by decide), nofun, ?_⟩
    simp only [List.forall_mem_cons]
    refine ⟨nofun, fun ty isTy => ?_, nofun, nofun, nofun⟩
    obtain rfl := Option.some.inj isTy
    decide
  have readsBack : shiftAll.FloatsReadBack := by
    refine List.forall_mem_singleton.2 ?_
    simp only [List.forall_mem_cons]
    refine ⟨nofun, fun dest ty value isConst => ?_, nofun, nofun, nofun⟩
    obtain ⟨_, _, isFloat⟩ := Action.const.inj isConst
    obtain rfl := Literal.float.inj isFloat
    show Json.parse "1.5" = .ok (.number (.float ⟨0x3FF8000000000000⟩))
    rfl
  exact ⟨expressible, rfl, shallow, readsBack,
    Program.ofJson_toJsonText.2 shiftAll expressible rfl shallow readsBack⟩

end Midend
