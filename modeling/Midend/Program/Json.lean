import Midend.Program

/-! # Programs as JSON

The JSON form of programs. Between a program and its text stand records of optional fields. Reading
goes in two steps: the text is read into fields, and only then are the fields of each instruction
checked against each other, so a fault in the text counts before a fault in an instruction.
Instructions without a key are numbered after the largest key so far. How fields become text and
text becomes fields is left to a text layer; `TextLayer.standard` is the one that is used. -/

namespace Midend

/-! ## Records of fields -/

/-- The fields of an instruction. -/
structure InstrFields where
  /-- The name of a label. -/
  label : Option String := none
  /-- The name of the operation. -/
  op : Option String := none
  /-- The variable written. -/
  dest : Option String := none
  /-- The type of the variable written. -/
  ty : Option Ty := none
  /-- The value of a constant. -/
  value : Option Json := none
  /-- Arguments, functions and labels. -/
  operands : Operands := {}
  /-- The source position. -/
  pos : Option Position := none
  /-- The sequence key. -/
  key : Option Nat := none

/-- The fields of a function. -/
structure FuncFields where
  /-- The name. -/
  name : String := ""
  /-- The parameters. -/
  params : List Param := []
  /-- The type of the result. -/
  returnType : Option Ty := none
  /-- The instructions. -/
  instrs : List InstrFields := []
  /-- The source position. -/
  pos : Option Position := none

open Json (Reader Field)

/-- Reads a type. -/
def readTy : Reader Ty := Reader.interpreted Ty.ofJson?

/-- Reads a source position. -/
def readPosition : Reader Position :=
  Reader.record ⟨0, 0⟩
    [ .of "row" (.natural (Nat.pow 2 32)) (fun row position => { position with row }) true,
      .of "col" (.natural (Nat.pow 2 32)) (fun col position => { position with col }) true ]

/-- Reads a parameter. -/
def readParam : Reader Param :=
  Reader.record ⟨"", .int⟩
    [ .of "name" .string (fun name param => { param with name }) true,
      .of "type" readTy (fun ty param => { param with ty }) true ]

/-- Reads the fields of an instruction. -/
def readInstrFields : Reader InstrFields :=
  Reader.record {}
    [ .of "label" (.optional .string) fun label fields => { fields with label },
      .of "op" (.optional .string) fun op fields => { fields with op },
      .of "dest" (.optional .string) fun dest fields => { fields with dest },
      .of "type" (.optional readTy) fun ty fields => { fields with ty },
      .of "value" (.optional Json.readAny) fun value fields => { fields with value },
      .of "args" (.list .string) fun args fields =>
        { fields with operands := { fields.operands with args } },
      .of "funcs" (.list .string) fun funcs fields =>
        { fields with operands := { fields.operands with funcs } },
      .of "labels" (.list .string) fun labels fields =>
        { fields with operands := { fields.operands with labels } },
      .of "pos" (.optional readPosition) fun pos fields => { fields with pos },
      .of "key" (.optional (.natural keyLimit)) fun key fields => { fields with key } ]

/-- Reads the fields of a function. -/
def readFuncFields : Reader FuncFields :=
  Reader.record {}
    [ .of "name" .string (fun name fields => { fields with name }) true,
      .of "args" (.list readParam) fun params fields => { fields with params },
      .of "type" (.optional readTy) fun returnType fields => { fields with returnType },
      .of "instrs" (.list readInstrFields) fun instrs fields => { fields with instrs },
      .of "pos" (.optional readPosition) fun pos fields => { fields with pos } ]

/-- Reads the fields of the functions of a program. -/
def readProgramFields : Reader (List FuncFields) :=
  Reader.record []
    [.of "functions" (.list readFuncFields) (fun functions _ => functions) true]

/-! ## From fields to code -/

/-- Reads a constant of a type. -/
def Literal.ofJson (document : Json) (ty : Ty) : Except Error Literal :=
  match Literal.ofJson? ty document with
  | some literal => .ok literal
  | none =>
    .error (.malformed
      ("Constant " ++ document.canonical.compact ++ " is not a valid " ++ ty.render))

/-- The value of a field, or a complaint that it is missing. -/
def requireField {α : Type} (field : Option α) (complaint : String) : Except Error α :=
  match field with
  | some value => .ok value
  | none => .error (.malformed complaint)

/-- The action that the fields of an instruction describe. -/
def InstrFields.toAction (fields : InstrFields) : Except Error Action := do
  match fields.label with
  | some name =>
    if fields.op.isSome then
      throw (.malformed ("Label '" ++ name ++ "' must not carry an opcode"))
    else return .label name
  | none =>
    let opName ← requireField fields.op "Instruction without 'op' or 'label'"
    let op ← requireField (Opcode.ofName? opName) ("Unknown opcode '" ++ opName ++ "'")
    if op = .const then
      let dest ← requireField fields.dest "'const' without 'dest'"
      let ty ← requireField fields.ty ("'const' " ++ dest ++ " without 'type'")
      let document ← requireField fields.value ("'const' " ++ dest ++ " without 'value'")
      return .const dest ty (← Literal.ofJson document ty)
    else
      match fields.dest with
      | some dest =>
        let ty ← requireField fields.ty (Instr.quoted op ++ " " ++ dest ++ " without 'type'")
        return .compute op dest ty fields.operands
      | none => return .effect op fields.operands

/-- The instructions that a list of fields describes, and the key after the largest one so far. -/
def InstrFields.toInstrs (nextKey : Nat) : List InstrFields → Except Error (List Instr × Nat)
  | [] => .ok ([], nextKey)
  | fields :: rest => do
    let key := fields.key.getD nextKey
    let action ← fields.toAction
    let (instrs, nextKey) ← toInstrs (max nextKey (min (key + 1) (keyLimit - 1))) rest
    return ({ action, pos := fields.pos, key } :: instrs, nextKey)

/-- The functions that a list of fields describes, their keys counted on from `nextKey`. -/
def FuncFields.toFuncs (nextKey : Nat) : List FuncFields → Except Error (List Func)
  | [] => .ok []
  | fields :: rest => do
    let (instrs, nextKey) ← InstrFields.toInstrs nextKey fields.instrs
    let functions ← toFuncs nextKey rest
    return { fields with instrs } :: functions

/-! ## From code to fields -/

/-- The name of a label. -/
def Action.label? : Action → Option String
  | .label name => some name
  | _ => none

/-- The value of a constant. -/
def Action.value? : Action → Option Literal
  | .const _ _ value => some value
  | _ => none

/-- The fields that describe an instruction. Its key is always among them. -/
def Instr.toFields (instr : Instr) : InstrFields where
  label := instr.action.label?
  op := instr.action.op?.map Opcode.name
  dest := instr.action.dest?
  ty := instr.action.ty?
  value := instr.action.value?.map Literal.toJson
  operands := instr.action.operands
  pos := instr.pos
  key := some instr.key

/-- The fields that describe a function. -/
def Func.toFields (function : Func) : FuncFields :=
  { function with instrs := function.instrs.map Instr.toFields }

/-! ## From fields to JSON -/

/-- A member for each value that is present. -/
def optionalMember {α : Type} (name : String) (value : Option α) (encode : α → Json) :
    List (String × Json) := value.toList.map fun value => (name, encode value)

/-- A member for a list of texts, unless it is empty. -/
def listMember (name : String) (values : List String) : List (String × Json) :=
  if values.isEmpty then [] else [(name, Json.ofStrings values)]

/-- A source position as JSON. -/
def Position.toJson (position : Position) : Json :=
  .object [("row", .ofNat position.row), ("col", .ofNat position.col)]

/-- The fields of an instruction as JSON; what is absent or empty is left out. -/
def InstrFields.toJson (fields : InstrFields) : Json :=
  .object (optionalMember "label" fields.label .string ++
    (optionalMember "op" fields.op .string ++
    (optionalMember "dest" fields.dest .string ++
    (optionalMember "type" fields.ty Ty.toJson ++
    (optionalMember "value" fields.value id ++
    (listMember "args" fields.operands.args ++
    (listMember "funcs" fields.operands.funcs ++
    (listMember "labels" fields.operands.labels ++
    (optionalMember "pos" fields.pos Position.toJson ++
    optionalMember "key" fields.key .ofNat)))))))))

/-- A parameter as JSON. -/
def Param.toJson (param : Param) : Json :=
  .object [("name", .string param.name), ("type", param.ty.toJson)]

/-- The fields of a function as JSON; what is absent or empty is left out, except the list of its
instructions. -/
def FuncFields.toJson (fields : FuncFields) : Json :=
  .object (("name", .string fields.name) ::
    ((if fields.params.isEmpty then [] else [("args", .array (fields.params.map Param.toJson))]) ++
    (optionalMember "type" fields.returnType Ty.toJson ++
    (("instrs", .array (fields.instrs.map InstrFields.toJson)) ::
    optionalMember "pos" fields.pos Position.toJson))))

/-- The fields of the functions of a program as JSON. -/
def FuncFields.document (functions : List FuncFields) : Json :=
  .object [("functions", .array (functions.map FuncFields.toJson))]

/-- A program as JSON. -/
def Program.toJson (program : Program) : Json :=
  FuncFields.document (program.functions.map Func.toFields)

/-! ## Texts -/

/-- How the fields of the functions of a program are read from texts, and how documents are written
as texts. -/
structure TextLayer where
  /-- The fields that a text holds. -/
  read : String → Except Json.Problem (List FuncFields)
  /-- The text of a document. -/
  print : Json → String

/-- Texts over several lines, read from left to right. -/
def TextLayer.standard : TextLayer := ⟨readProgramFields.run, Json.pretty⟩

/-- Reads a program from a text and checks that its functions fit together. -/
def Program.ofText (layer : TextLayer) (text : String) : Except Error Program := do
  match layer.read text with
  | .error problem => throw (.json problem)
  | .ok fields =>
    let program : Program := ⟨← FuncFields.toFuncs 1 fields⟩
    program.checkLinkage
    return program

/-- The text of a program. -/
def Program.toText (layer : TextLayer) (program : Program) : String := layer.print program.toJson

/-- Reads a program from JSON text. -/
def Program.ofJson (text : String) : Except Error Program := ofText .standard text

/-- The text of a program as JSON. -/
def Program.toJsonText (program : Program) : String := program.toText .standard

end Midend
