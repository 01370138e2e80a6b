import Midend.Program.Json
import Midend.Proofs.Json.Outcomes
import Midend.Proofs.Json.Shapes

/-! # What is asked of a text layer

A text layer is faithful if what it reads fits where it is put and it reads what it prints for fields
that fit as these fields, as long as it prints their numbers exactly (`TextLayer.Faithful`). Texts over
several lines, read from left to right, are a faithful text layer (`TextLayer.faithful_standard`), and
the numbers that are printed exactly are those whose text is read as the same number. -/

namespace Midend

open Json (Reader Decodes Gives GivesAt)

/-! ## Fields that fit -/

/-- Whether a source position fits the numbers that are written for it. -/
def Position.Fits (position : Position) : Prop :=
  position.row < Nat.pow 2 32 ∧ position.col < Nat.pow 2 32

/-- Whether the fields of an instruction fit where they are put. -/
structure InstrFields.Fits (fields : InstrFields) : Prop where
  /-- The numbers in the value are finite. -/
  value : ∀ document ∈ fields.value, document.EachNumber Json.Number.Finite
  /-- The position fits. -/
  pos : ∀ position ∈ fields.pos, position.Fits
  /-- The key fits. -/
  key : ∀ key ∈ fields.key, key < keyLimit

/-- Whether the fields of a function fit where they are put. -/
structure FuncFields.Fits (fields : FuncFields) : Prop where
  /-- The instructions fit. -/
  instrs : ∀ instr ∈ fields.instrs, instr.Fits
  /-- The position fits. -/
  pos : ∀ position ∈ fields.pos, position.Fits

/-- How many pointers a type goes through. -/
def Ty.depth : Ty → Nat
  | .ptr pointee => pointee.depth + 1
  | _ => 0

/-- Whether the types in the fields of a function are nested no deeper than given; the type of the
result stands two levels further out. -/
structure FuncFields.Shallow (nesting : Nat) (fields : FuncFields) : Prop where
  /-- Types of parameters. -/
  params : ∀ param ∈ fields.params, param.ty.depth ≤ nesting
  /-- The type of the result. -/
  returnType : ∀ ty ∈ fields.returnType, ty.depth ≤ nesting + 2
  /-- Types of variables. -/
  instrs : ∀ instr ∈ fields.instrs, ∀ ty ∈ instr.ty, ty.depth ≤ nesting

/-- Whether the values in the fields of a function are printed exactly: they are something, and their
numbers are among the given ones. -/
def FuncFields.Exact (exact : Json.Number → Prop) (fields : FuncFields) : Prop :=
  ∀ instr ∈ fields.instrs, ∀ document ∈ instr.value, document ≠ .null ∧ document.EachNumber exact

/-- Whether a text layer keeps what goes through it; `exact` holds of numbers that it prints
exactly. -/
structure TextLayer.Faithful (layer : TextLayer) (exact : Json.Number → Prop) : Prop where
  /-- What is read fits where it is put. -/
  fits : ∀ text functions, layer.read text = .ok functions → ∀ function ∈ functions, function.Fits
  /-- What is read is nested no deeper than a reader goes. -/
  shallow : ∀ text functions, layer.read text = .ok functions →
    ∀ function ∈ functions, function.Shallow (Json.maxNesting - 5)
  /-- Integers of 64 bits are printed exactly. -/
  integer : ∀ value : Int, -(Nat.pow 2 63 : Int) ≤ value → value < Nat.pow 2 64 →
    exact (.integer value)
  /-- What is printed for fields is read as these fields. -/
  read_print : ∀ functions : List FuncFields,
    (∀ function ∈ functions, function.Fits ∧ function.Exact exact) →
    (FuncFields.document functions).nesting ≤ Json.maxNesting →
    layer.read (layer.print (FuncFields.document functions)) = .ok functions

/-! ## Types, positions and parameters -/

/-- Types are read as written. -/
theorem Ty.ofJson?_toJson (ty : Ty) : ofJson? ty.toJson = some ty := by
  induction ty with
  | ptr pointee pointeeIH =>
    rw [toJson, ofJson?]
    simp [ofMembers?, pointeeIH]
  | _ => rfl

/-- There are no numbers in types. -/
theorem Ty.eachNumber_toJson (holds : Json.Number → Prop) (ty : Ty) :
    ty.toJson.EachNumber holds := by
  induction ty with
  | ptr pointee pointeeIH => exact ⟨pointeeIH, trivial⟩
  | _ => trivial

/-- A type is something. -/
theorem Ty.toJson_ne_null (ty : Ty) : ty.toJson ≠ .null := by
  cases ty <;> exact nofun

/-- Types are taken from what is written for them. -/
theorem decodes_readTy (ty : Ty) : Decodes readTy ty.toJson ty :=
  Json.decodes_interpreted (ty.eachNumber_toJson _) ty.ofJson?_toJson

/-- Positions are taken from what is written for them. -/
theorem decodes_readPosition {position : Position} (fits : position.Fits) :
    Decodes readPosition position.toJson position :=
  Json.decodes_record (by decide) (.required (Json.decodes_natural fits.1 (by decide))
    (.required (Json.decodes_natural fits.2 (by decide)) .nil))

/-- Parameters are taken from what is written for them. -/
theorem decodes_readParam (param : Param) : Decodes readParam param.toJson param :=
  Json.decodes_record (by decide) (.required (Json.decodes_readerString param.name)
    (.required (decodes_readTy param.ty) .nil))

/-! ## What is printed -/

/-- The fields of instructions are taken from what is written for them. -/
theorem decodes_readInstrFields {fields : InstrFields} (fits : fields.Fits)
    (exact : ∀ document ∈ fields.value,
      document ≠ .null ∧ document.EachNumber Json.Number.ReadsBack) :
    Decodes readInstrFields fields.toJson fields := by
  have strings : ∀ {value : Option String}, ∀ found ∈ value,
      Decodes Reader.string (.string found) found := fun found _ => Json.decodes_readerString found
  rw [InstrFields.toJson, ← List.append_nil (optionalMember "key" _ _)]
  -- The fields follow in the order in which they are written; one that is absent is left out.
  refine Json.decodes_record (by decide) ?_
  refine .optional (congrFun Option.map_id _) strings (fun _ _ => nofun) rfl ?_
  refine .optional (congrFun Option.map_id _) strings (fun _ _ => nofun) rfl ?_
  refine .optional (congrFun Option.map_id _) strings (fun _ _ => nofun) rfl ?_
  refine .optional (congrFun Option.map_id _) (fun ty _ => decodes_readTy ty)
    (fun ty _ => ty.toJson_ne_null) rfl ?_
  refine .optional (congrFun Option.map_id _)
    (fun document isValue => Json.decodes_readAny document (exact document isValue).2)
    (fun document isValue => (exact document isValue).1) rfl ?_
  refine .texts rfl (.texts rfl (.texts rfl ?_))
  refine .optional (congrFun Option.map_id _)
    (fun position isPos => decodes_readPosition (fits.pos position isPos)) (fun _ _ => nofun) rfl ?_
  exact .optional (congrFun Option.map_id _)
    (fun key isKey => Json.decodes_natural (fits.key key isKey) (Nat.le_refl _))
    (fun _ _ => nofun) rfl .nil

/-- The fields of functions are taken from what is written for them. -/
theorem decodes_readFuncFields {fields : FuncFields} (fits : fields.Fits)
    (exact : fields.Exact Json.Number.ReadsBack) : Decodes readFuncFields fields.toJson fields := by
  have instrs : List.Forall₂ (Decodes readInstrFields) (fields.instrs.map InstrFields.toJson)
      fields.instrs := by
    rw [List.forall₂_map_left_iff]
    exact List.forall₂_same.2 fun instr member =>
      decodes_readInstrFields (fits.instrs instr member) (exact instr member)
  rw [FuncFields.toJson, ← List.append_nil (optionalMember "pos" _ _)]
  refine Json.decodes_record (by decide) (.required (Json.decodes_readerString fields.name) ?_)
  refine .list (List.forall₂_same.2 fun param _ => decodes_readParam param) rfl ?_
  refine .optional (congrFun Option.map_id _) (fun ty _ => decodes_readTy ty)
    (fun ty _ => ty.toJson_ne_null) rfl (.required (Json.decodes_list instrs) ?_)
  exact .optional (congrFun Option.map_id _)
    (fun position isPos => decodes_readPosition (fits.pos position isPos)) (fun _ _ => nofun) rfl .nil

/-- The fields of the functions of a program are taken from what is written for them. -/
theorem decodes_readProgramFields {functions : List FuncFields}
    (fit : ∀ function ∈ functions, function.Fits ∧ function.Exact Json.Number.ReadsBack) :
    Decodes readProgramFields (FuncFields.document functions) functions := by
  refine Json.decodes_record (by decide) (.required (Json.decodes_list ?_) .nil)
  rw [List.forall₂_map_left_iff]
  exact List.forall₂_same.2 fun function member =>
    decodes_readFuncFields (fit function member).1 (fit function member).2

/-! ## What is read -/

/-- Positions that are read fit. -/
theorem gives_readPosition : Gives readPosition Position.Fits := by
  have natural : Gives (Reader.natural (Nat.pow 2 32)) (· < Nat.pow 2 32) :=
    Json.gives_natural (by decide)
  -- What is not read yet is zero.
  refine Json.gives_record ⟨by decide, by decide⟩
    (List.forall_mem_cons.2 ⟨?_, List.forall_mem_singleton.2 ?_⟩)
  · exact natural.field (fun row low position fits => ⟨low, fits.2⟩) "row" true
  · exact natural.field (fun col low position fits => ⟨fits.1, low⟩) "col" true

/-- A field of which nothing is asked keeps records good, however deep its value is nested. -/
theorem gives_unasked {α σ : Type} {read : Reader α} {put : α → σ → σ} {good : σ → Prop}
    (keeps : ∀ value record, good record → good (put value record)) (name : String) (required : Bool) :
    Gives (Json.Field.of name read put required).read
      fun put => ∀ record, good record → good (put record) :=
  have anything : Gives read fun _ => True := fun _ _ _ _ _ => trivial
  anything.field (fun value _ => keeps value) name required

/-- Fields of instructions that are read fit. -/
theorem gives_readInstrFields : Gives readInstrFields InstrFields.Fits := by
  refine Json.gives_record ⟨nofun, nofun, nofun⟩ ?_
  simp only [List.forall_mem_cons]
  refine ⟨?label, ?op, ?dest, ?ty, ?value, ?args, ?funcs, ?labels, ?pos, ?key,
    fun _ none => absurd none List.not_mem_nil⟩
  case value =>
    exact Json.gives_readAny.optional.field (fun _ good _ fits => ⟨good, fits.pos, fits.key⟩) _ _
  case pos =>
    exact gives_readPosition.optional.field (fun _ good _ fits => ⟨fits.value, good, fits.key⟩) _ _
  case key =>
    have natural : Gives (Reader.natural keyLimit) (· < keyLimit) := Json.gives_natural (by decide)
    exact natural.optional.field (fun _ good _ fits => ⟨fits.value, fits.pos, good⟩) _ _
  all_goals exact gives_unasked (fun _ _ fits => ⟨fits.value, fits.pos, fits.key⟩) _ _

/-- Fields of functions that are read fit. -/
theorem gives_readFuncFields : Gives readFuncFields FuncFields.Fits := by
  refine Json.gives_record ⟨nofun, nofun⟩ ?_
  simp only [List.forall_mem_cons]
  refine ⟨?name, ?params, ?returnType, ?instrs, ?pos, fun _ none => absurd none List.not_mem_nil⟩
  case instrs => exact gives_readInstrFields.list.field (fun _ good _ fits => ⟨good, fits.pos⟩) _ _
  case pos => exact gives_readPosition.optional.field (fun _ good _ fits => ⟨fits.instrs, good⟩) _ _
  all_goals exact gives_unasked (fun _ _ fits => ⟨fits.instrs, fits.pos⟩) _ _

/-- Fields of programs that are read fit. -/
theorem gives_readProgramFields :
    Gives readProgramFields fun functions => ∀ function ∈ functions, function.Fits :=
  Json.gives_record nofun (List.forall_mem_singleton.2
    (gives_readFuncFields.list.field (fun _ good _ _ => good) _ _))

/-! ## How deep types that are read are nested -/

mutual

/-- A type goes through no more pointers than its document has levels. -/
theorem Ty.depth_le_of_ofJson? : (document : Json) → {ty : Ty} → ofJson? document = some ty →
    ty.depth ≤ document.nesting
  | .string name, ty, found => by
    rw [ofJson?] at found
    unfold ofName? at found
    split at found <;> cases found <;> exact Nat.le_refl _
  | .object members, ty, found => by
    rw [ofJson?] at found
    split at found
    · exact depth_le_of_ofMembers? members found
    · cases found
  | .null, _, found | .bool _, _, found | .number _, _, found | .array _, _, found => by
    cases found

/-- A pointer goes through no more pointers than its members have levels, and one. -/
theorem Ty.depth_le_of_ofMembers? : (members : List (String × Json)) → {ty : Ty} →
    ofMembers? members = some ty → ty.depth ≤ Json.nestingOfMembers members + 1
  | [], _, found => by
    rw [ofMembers?] at found
    cases found
  | (name, value) :: rest, ty, found => by
    rw [ofMembers?] at found
    rw [Json.nestingOfMembers]
    split at found
    · obtain ⟨pointee, isPointee, rfl⟩ := Option.map_eq_some_iff.1 found
      have deep := depth_le_of_ofJson? value isPointee
      rw [depth]
      omega
    · have deep := depth_le_of_ofMembers? rest found
      omega

end

/-- Types that are read go through no more pointers than levels are allowed. -/
theorem givesAt_readTy (nesting : Nat) : GivesAt nesting readTy fun ty => ty.depth ≤ nesting := by
  intro text ty rest read
  obtain ⟨⟨document, left⟩, isRead, read⟩ := Attempt.bind_eq_ok.1 read
  dsimp only at read
  split at read
  · rename_i isTy
    cases read
    exact (Ty.depth_le_of_ofJson? document isTy).trans
      (Json.givesAt_readAny nesting _ _ _ isRead).2
  · cases read

/-- Types of parameters that are read are nested no deeper than allowed. -/
theorem givesAt_readParam (nesting : Nat) :
    GivesAt (nesting + 1) readParam fun param => param.ty.depth ≤ nesting := by
  refine Json.givesAt_record (Nat.zero_le _) fun lower isLower => ?_
  obtain rfl : nesting = lower := by omega
  refine List.forall_mem_cons.2 ⟨?name, List.forall_mem_singleton.2 ?ty⟩
  case name =>
    refine gives_unasked ?_ _ _ _
    exact fun _ _ shallow => shallow
  case ty => exact (givesAt_readTy nesting).field (fun _ shallow _ _ => shallow) _ _

/-- Types of variables that are read are nested no deeper than allowed. -/
theorem givesAt_readInstrFields (nesting : Nat) :
    GivesAt (nesting + 1) readInstrFields fun fields => ∀ ty ∈ fields.ty, ty.depth ≤ nesting := by
  refine Json.givesAt_record nofun fun lower isLower => ?_
  obtain rfl : nesting = lower := by omega
  simp only [List.forall_mem_cons]
  refine ⟨?label, ?op, ?dest, ?ty, ?value, ?args, ?funcs, ?labels, ?pos, ?key,
    fun _ none => absurd none List.not_mem_nil⟩
  case ty => exact (givesAt_readTy nesting).optional.field (fun _ shallow _ _ => shallow) _ _
  -- No other field is a type.
  all_goals
    refine gives_unasked ?_ _ _ _
    exact fun _ _ shallow => shallow

/-- Types in functions that are read are nested no deeper than allowed. -/
theorem givesAt_readFuncFields (nesting : Nat) :
    GivesAt (nesting + 3) readFuncFields (FuncFields.Shallow nesting) := by
  refine Json.givesAt_record ⟨nofun, nofun, nofun⟩ fun lower isLower => ?_
  obtain rfl : lower = nesting + 2 := by omega
  simp only [List.forall_mem_cons]
  refine ⟨?name, ?params, ?returnType, ?instrs, ?pos, fun _ none => absurd none List.not_mem_nil⟩
  case params =>
    refine GivesAt.field (.list fun lower isLower => ?_)
      (fun _ params _ shallow => ⟨params, shallow.returnType, shallow.instrs⟩) _ _
    obtain rfl : lower = nesting + 1 := by omega
    exact givesAt_readParam nesting
  case returnType =>
    exact (givesAt_readTy _).optional.field
      (fun _ returnType _ shallow => ⟨shallow.params, returnType, shallow.instrs⟩) _ _
  case instrs =>
    refine GivesAt.field (.list fun lower isLower => ?_)
      (fun _ instrs _ shallow => ⟨shallow.params, shallow.returnType, instrs⟩) _ _
    obtain rfl : lower = nesting + 1 := by omega
    exact givesAt_readInstrFields nesting
  all_goals
    exact gives_unasked (fun _ _ shallow => ⟨shallow.params, shallow.returnType, shallow.instrs⟩) _ _ _

/-- Types in programs that are read are nested no deeper than allowed. -/
theorem givesAt_readProgramFields (nesting : Nat) :
    GivesAt (nesting + 5) readProgramFields fun functions =>
      ∀ function ∈ functions, function.Shallow nesting := by
  refine Json.givesAt_record nofun fun lower isLower => List.forall_mem_singleton.2 ?_
  refine GivesAt.field (.list fun lower isLower => ?_) (fun _ shallow _ _ => shallow) _ _
  obtain rfl : lower = nesting + 3 := by omega
  exact givesAt_readFuncFields nesting

/-- Texts over several lines that are read from left to right keep what goes through them. -/
theorem TextLayer.faithful_standard : standard.Faithful Json.Number.ReadsBack := by
  refine ⟨fun text functions read => ?_, fun text functions read => ?_,
    fun value low high => Json.readsBack_integer low high, fun functions fit shallow =>
      Json.run_pretty (decodes_readProgramFields fit) shallow⟩
  · obtain ⟨rest, taken, _⟩ := Reader.run_eq_ok.1 read
    exact gives_readProgramFields _ _ _ _ taken
  · obtain ⟨rest, taken, _⟩ := Reader.run_eq_ok.1 read
    exact givesAt_readProgramFields 122 _ _ _ taken

end Midend
