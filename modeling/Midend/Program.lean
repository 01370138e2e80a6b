import Midend.Instr
import Midend.Sorted.Set

/-! # Functions and programs

A function is a flat list of instructions with labels among them; a program is a list of functions.
`Func.check` and `Program.check` say which of them are well-formed. -/

namespace Midend

/-- A parameter of a function. -/
structure Param where
  /-- The name. -/
  name : String
  /-- The type. -/
  ty : Ty
  deriving DecidableEq, Repr

/-- A function as a flat list of instructions. -/
structure Func where
  /-- The name. -/
  name : String
  /-- The parameters in order. -/
  params : List Param := []
  /-- The type of the result, if there is one. -/
  returnType : Option Ty := none
  /-- The instructions, labels included. -/
  instrs : List Instr := []
  /-- Where it comes from. -/
  pos : Option Position := none
  deriving DecidableEq, Repr

/-- A program: functions in order. -/
structure Program where
  /-- The functions. -/
  functions : List Func := []
  deriving DecidableEq, Repr

/-- Functions that may be called without being declared. -/
def intrinsics : List String := ["print", "alloc", "free"]

/-- The first element of a list that also stands earlier in it. -/
def firstRepeated? (names : List String) : Option String :=
  let rec search (seen : SortedSet String) : List String → Option String
    | [] => none
    | name :: rest => if seen.contains name then some name else search (seen.insert name) rest
  search .empty names

/-- The text of a parameter. -/
def Param.render (param : Param) : String := param.name ++ ": " ++ param.ty.render

namespace Func

/-- The largest key of an instruction. -/
def maxKey (function : Func) : Nat := function.instrs.foldl (fun key instr => max key instr.key) 0

/-- Every variable that the function mentions. -/
def varNames (function : Func) : SortedSet String :=
  function.instrs.foldl
    (fun names instr => instr.args.foldl .insert (instr.dest?.toList.foldl .insert names))
    (.ofList (function.params.map Param.name))

/-- Appends an instruction, with its place in the list as its key. -/
def push (function : Func) (instr : Instr) : Func :=
  { function with
    instrs := function.instrs ++ [instr.withKey (function.instrs.length + 1)] }

/-- The number of instructions other than labels. -/
def instructionCount (function : Func) : Nat :=
  function.instrs.countP fun instr => !instr.isLabel

/-- Checks the instructions in order, and that no label is declared twice; answers the labels. -/
def checkInstrs (function : String) :
    SortedSet String → List Instr → Except Error (SortedSet String)
  | labels, [] => .ok labels
  | labels, instr :: rest => do
    instr.check
    match instr.action with
    | .label name =>
      if labels.contains name then
        throw (.malformed ("Duplicate label '" ++ name ++ "' in function '" ++ function ++ "'"))
      else checkInstrs function (labels.insert name) rest
    | _ => checkInstrs function labels rest

/-- Whether a function is well-formed: parameters and labels are distinct, instructions are
well-formed and branches go to declared labels. -/
def check (function : Func) : Except Error Unit := do
  match firstRepeated? (function.params.map Param.name) with
  | some name =>
    throw (.malformed
      ("Duplicate parameter '" ++ name ++ "' in function '" ++ function.name ++ "'"))
  | none => pure ()
  let labels ← checkInstrs function.name .empty function.instrs
  let targets := (function.instrs.filter Instr.isTerminator).flatMap Instr.labels
  match targets.find? fun target => !labels.contains target with
  | some target =>
    throw (.malformed
      ("Branch to undeclared label '" ++ target ++ "' in function '" ++ function.name ++ "'"))
  | none => pure ()

/-- An instruction on a line of its own; labels stand at the margin. -/
def renderLine (instr : Instr) : String :=
  (if instr.isLabel then "" else "  ") ++ instr.render ++ "\n"

/-- The text of a function. -/
def render (function : Func) : String :=
  let params :=
    if function.params.isEmpty then ""
    else "(" ++ ", ".intercalate (function.params.map Param.render) ++ ")"
  let result := match function.returnType with
    | some ty => ": " ++ ty.render
    | none => ""
  "@" ++ function.name ++ params ++ result ++ " \x7b\n" ++
    String.join (function.instrs.map renderLine) ++ "\x7d"

end Func

namespace Program

/-- The function of a name. -/
def find? (program : Program) (name : String) : Option Func :=
  program.functions.find? fun function => function.name == name

/-- The function of a name, or the error that there is none. -/
def get (program : Program) (name : String) : Except Error Func :=
  match program.find? name with
  | some function => .ok function
  | none => .error (.functionNotFound name)

/-- Changes the first function of a name. -/
def modify (program : Program) (name : String) (change : Func → Func) : Program :=
  match program.functions.findIdx? fun function => function.name == name with
  | some index => ⟨program.functions.modify index change⟩
  | none => program

/-- The function where execution starts. -/
def main? (program : Program) : Option Func := program.find? "main"

/-- The calls in a program: caller and callee, in order. -/
def calls (program : Program) : List (String × String) :=
  program.functions.flatMap fun function =>
    (function.instrs.filter fun instr => instr.op? = some .call).flatMap fun instr =>
      instr.funcs.map fun callee => (function.name, callee)

/-- Whether the functions fit together: names are distinct, and calls go to declared functions or
intrinsics. -/
def checkLinkage (program : Program) : Except Error Unit := do
  let names := program.functions.map Func.name
  match firstRepeated? names with
  | some name => throw (.malformed ("Duplicate function '" ++ name ++ "'"))
  | none => pure ()
  match program.calls.find? fun call => !names.contains call.2 && !intrinsics.contains call.2 with
  | some (caller, callee) =>
    throw (.malformed
      ("Function '" ++ caller ++ "' calls undeclared function '" ++ callee ++ "'"))
  | none => pure ()

/-- Whether the functions fit together and each of them is well-formed. -/
def check (program : Program) : Except Error Unit := do
  program.checkLinkage
  program.functions.forM Func.check

/-- The text of a program: its functions with blank lines between them. -/
def render (program : Program) : String :=
  "\n".intercalate (program.functions.map fun function => function.render ++ "\n")

end Program

end Midend
