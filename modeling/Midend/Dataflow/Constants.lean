import Midend.Dataflow.Solver

/-! # Constant variables

A forward analysis of which variables hold one known constant. A variable that no path has written
is absent; one that may hold different values, or the result of a computation, is unknown. -/

namespace Midend

/-- What is known about the value of a variable. -/
inductive ConstValue where
  /-- It is this constant. -/
  | known (value : Literal)
  /-- It may be anything. -/
  | unknown
  deriving DecidableEq, Repr

namespace ConstValue

/-- What is known when either of two things may hold. -/
def join (left right : ConstValue) : ConstValue := if left = right then left else .unknown

/-- The constant, if there is one. -/
def literal? : ConstValue → Option Literal
  | .known value => some value
  | .unknown => none

/-- The text of what is known. -/
def render : ConstValue → String
  | .known value => value.render
  | .unknown => "?"

end ConstValue

namespace ConstantPropagation

/-- What is known about each variable that may have been written. -/
abbrev State := SortedMap String ConstValue

/-- Adds what one more path knows. A variable that only one of the paths has written keeps its
value. -/
def mergeTwo (left right : State) : State :=
  right.foldl
    (fun merged var value =>
      merged.alter var fun known =>
        match known with
        | some known => known.join value
        | none => value)
    left

/-- What is known after an instruction. -/
def step (state : State) (instr : Instr) : State :=
  match instr.action with
  | .const dest _ value => state.insert dest (.known value)
  | .compute _ dest _ _ => state.insert dest .unknown
  | _ => state

/-- Constant variables of a flow graph as an analysis. -/
def analysis (graph : FlowGraph) : Analysis State where
  name := "constant propagation"
  direction := .forward
  boundary := .ofList (graph.paramNames.map fun name => (name, .unknown))
  initial := .empty
  merge := fun states => states.foldl mergeTwo .empty
  transfer := fun block state => block.instrs.foldl step state

end ConstantPropagation

end Midend
