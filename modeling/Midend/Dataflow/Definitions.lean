import Midend.Dataflow.Solver

/-! # Definitions

Two forward analyses of what has been written: which definitions of each variable may still be in
force (reaching definitions), and which variables may have a value at all (defined variables). -/

namespace Midend

/-- Where a variable gets its value. -/
inductive Site where
  /-- At the start, as a parameter. -/
  | param
  /-- At an instruction, given by its block and its place there. -/
  | instr (block : String) (index : Nat)
  deriving DecidableEq, Repr

/-- A place where a variable gets its value. -/
structure Definition where
  /-- The variable. -/
  var : String
  /-- The place. -/
  site : Site
  deriving DecidableEq, Repr

namespace Definition

/-- The block of a definition, unless it is a parameter. -/
def block? (definition : Definition) : Option String :=
  match definition.site with
  | .param => none
  | .instr block _ => some block

/-- The place of a definition in its block. -/
def index (definition : Definition) : Nat :=
  match definition.site with
  | .param => 0
  | .instr _ index => index

/-- Definitions are ordered by variable; a parameter comes before instructions, which are ordered by
block and place. -/
def order : Definition → Definition → Ordering :=
  compareLex (compareOn var) (compareLex (compareOn block?) (compareOn index))

instance : Ord Definition := ⟨order⟩

instance : Std.TransOrd Definition :=
  inferInstanceAs (Std.TransCmp
    (compareLex (compareOn var) (compareLex (compareOn block?) (compareOn index))))

instance : Std.LawfulEqOrd Definition where
  eq_of_compare {left right} same := by
    have parts : compareLex (compareOn var) (compareLex (compareOn block?) (compareOn index))
        left right = .eq := same
    simp only [compareLex, compareOn, Ordering.then_eq_eq] at parts
    obtain ⟨varEq, blockEq, indexEq⟩ := parts
    have varEq : left.var = right.var := Std.LawfulEqOrd.eq_of_compare varEq
    have blockEq : left.block? = right.block? := Std.LawfulEqOrd.eq_of_compare blockEq
    have indexEq : left.index = right.index := Std.LawfulEqOrd.eq_of_compare indexEq
    obtain ⟨leftVar, leftSite⟩ := left
    obtain ⟨rightVar, rightSite⟩ := right
    cases leftSite <;> cases rightSite <;> simp_all [block?, index]

/-- The text of a definition. -/
def render (definition : Definition) : String :=
  match definition.site with
  | .param => definition.var ++ "@param"
  | .instr block index => definition.var ++ "@" ++ block ++ ":" ++ toString index

end Definition

namespace ReachingDefinitions

/-- The definitions in force after an instruction at a place: one that writes a variable replaces
all earlier definitions of it. -/
def step (block : String) (definitions : SortedSet Definition) (instr : Instr) (index : Nat) :
    SortedSet Definition :=
  match instr.dest? with
  | some dest =>
    (definitions.filter fun definition => definition.var ≠ dest).insert ⟨dest, .instr block index⟩
  | none => definitions

/-- Reaching definitions of a flow graph as an analysis. -/
def analysis (graph : FlowGraph) : Analysis (SortedSet Definition) where
  name := "reaching definitions"
  direction := .forward
  boundary := .ofList (graph.paramNames.map fun name => ⟨name, .param⟩)
  initial := .empty
  merge := fun states => states.foldl .union .empty
  transfer := fun block definitions =>
    block.instrs.zipIdx.foldl
      (fun definitions (instr, index) => step block.name definitions instr index) definitions

/-- The definitions of one variable. -/
def ofVar (definitions : SortedSet Definition) (var : String) : SortedSet Definition :=
  definitions.filter fun definition => definition.var = var

end ReachingDefinitions

namespace DefinedVariables

/-- Defined variables of a flow graph as an analysis. -/
def analysis (graph : FlowGraph) : Analysis (SortedSet String) where
  name := "defined variables"
  direction := .forward
  boundary := .ofList graph.paramNames
  initial := .empty
  merge := fun states => states.foldl .union .empty
  transfer := fun block defined => block.defs.foldl .insert defined

end DefinedVariables

end Midend
