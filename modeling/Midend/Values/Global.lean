import Midend.Dominance.Basic
import Midend.FlowGraph.Edit
import Midend.Values.Numbering

/-! # Global value numbering

Values are numbered along the dominator tree: what a block computes is available in the blocks that
it dominates. Merges whose values are all the same, or that repeat another merge of their block,
become constants or copies. The code must be in single assignment. -/

namespace Midend

namespace GlobalNumbering

/-- The name of the pass. -/
def passName : String := "gvn"

/-- A merge that becomes something else whose value has a number. -/
structure Simplified where
  /-- The action that stands in the merge's place. -/
  action : Action
  /-- The number of its value. -/
  number : Nat
  /-- The text of its new right-hand side. -/
  text : String

/-- A copy of the variable that stands for a number. -/
def copyOf? (table : ValueTable) (dest : String) (ty : Ty) (number : Nat) : Option Simplified :=
  (table.canonical? number).map fun canonical =>
    ⟨.compute .id dest ty { args := [canonical] }, number, "id " ++ canonical⟩

/-- What a merge of values that all have one number becomes. -/
def uniform? (table : ValueTable) (dest : String) (ty : Ty) (numbers : List Nat) :
    Option Simplified :=
  match numbers with
  | [] => none
  | first :: rest =>
    if rest.all (· = first) then
      match table.constant? first with
      | some literal => some ⟨.const dest ty literal, first, literal.render⟩
      | none => copyOf? table dest ty first
    else none

/-- What a merge becomes: its uniform value, or an equal merge of the block. -/
def simplify? (table : ValueTable) (dest : String) (ty : Ty) (numbers : List Nat) (expr : Expr) :
    Option Simplified :=
  match uniform? table dest ty numbers with
  | some simplified => some simplified
  | none => (table.lookup? expr).bind (copyOf? table dest ty)

/-- Numbers a merge. One with a value that has no number yet gets a new value. -/
def numberPhi (place : Place) (table : ValueTable) (instr : Instr) : Instr × ValueTable × Log :=
  match instr.action with
  | .compute _ dest ty operands =>
    match operands.args.mapM table.numberOf? with
    | none => (instr, table.define dest, [])
    | some numbers =>
      let expr := Expr.ofPhi place.block (operands.labels.zip numbers)
      match simplify? table dest ty numbers expr with
      | some simplified =>
        ({ instr with action := simplified.action }, table.bind dest simplified.number,
          [place.report .phiSimplified (dest ++ " = " ++ simplified.text)])
      | none =>
        let (number, table) := table.push expr dest none
        (instr, table.bind dest number, [])
  | _ => (instr, table, [])

/-- Numbers instructions in order with a given step. -/
def numberAll (step : ValueTable → Instr → Instr × ValueTable × Log) :
    List Instr → ValueTable → List Instr × ValueTable × Log
  | [], table => ([], table, [])
  | instr :: rest, table =>
    let (instr, table, log) := step table instr
    let (rest, table, more) := numberAll step rest table
    (instr :: rest, table, log ++ more)

/-- Numbers a block: merges first, which stay in front of what other merges became. -/
def numberBlock (place : Place) (table : ValueTable) (block : Block) : Block × ValueTable × Log :=
  let (phis, table, simplifications) := numberAll (numberPhi place) block.phis table
  let (body, table, changes) := numberAll (Numbering.numberInstr place) block.body table
  let (kept, replaced) := phis.partition Instr.isPhi
  ({ block with instrs := kept ++ replaced ++ body }, table, simplifications ++ changes)

/-- Replaces the values that a merge takes from a block by canonical ones. -/
def propagateInto (place : Place) (table : ValueTable) (target : String) :
    List (String × String) → List (String × String) × Log
  | [] => ([], [])
  | (label, arg) :: rest =>
    let canonical :=
      if label = place.block then ((table.numberOf? arg).bind table.canonical?).getD arg else arg
    let reports :=
      if canonical = arg then []
      else [place.report .copyPropagated (arg ++ " -> " ++ canonical ++ " into " ++ target)]
    let (rest, log) := propagateInto place table target rest
    ((label, canonical) :: rest, reports ++ log)

/-- Replaces the values that the leading merges of a block take from another block. -/
def propagateToPhis (place : Place) (table : ValueTable) (target : String) :
    List Instr → List Instr × Log
  | [] => ([], [])
  | phi :: rest =>
    let (incoming, log) := propagateInto place table target phi.incoming
    let args := incoming.map Prod.snd ++ phi.args.drop incoming.length
    let phi := { phi with
      action := phi.action.mapOperands fun operands => { operands with args } }
    let (rest, more) := propagateToPhis place table target rest
    (phi :: rest, log ++ more)

/-- Replaces the values that the merges of the given blocks take from a block. -/
def propagate (place : Place) (table : ValueTable) : List String → FlowGraph → FlowGraph × Log
  | [], graph => (graph, [])
  | target :: rest, graph =>
    match graph.find? target with
    | some block =>
      let (phis, log) := propagateToPhis place table target block.phis
      let graph := graph.modifyBlock target fun block => { block with instrs := phis ++ block.body }
      let (graph, more) := propagate place table rest graph
      (graph, log ++ more)
    | none => propagate place table rest graph

/-- Numbers the block of a name and passes its values on to the merges of its successors. -/
def visitBlock (name : String) (table : ValueTable) (graph : FlowGraph) :
    FlowGraph × ValueTable × Log :=
  match graph.find? name with
  | none => (graph, table, [])
  | some block =>
    let place : Place := ⟨graph.name, name, passName⟩
    let (block, table, changes) := numberBlock place table block
    let graph := graph.modifyBlock name fun _ => block
    let (graph, copies) := propagate place table block.successors graph
    (graph, table, changes ++ copies)

mutual

/-- Numbers the blocks of a dominator tree. The values of a block are available in the trees below
it and nowhere else. -/
def visitTree : Dominance.Tree → ValueTable → FlowGraph → FlowGraph × Log
  | .node name children, table, graph =>
    let (graph, table, log) := visitBlock name table graph
    let (graph, more) := visitTrees children table graph
    (graph, log ++ more)

/-- Numbers the blocks of several trees that start with the same values. -/
def visitTrees : List Dominance.Tree → ValueTable → FlowGraph → FlowGraph × Log
  | [], _, graph => (graph, [])
  | tree :: rest, table, graph =>
    let (graph, log) := visitTree tree table graph
    let (graph, more) := visitTrees rest table graph
    (graph, log ++ more)

end

/-- Numbers the values of a flow graph; the reports say what was changed. -/
def run (graph : FlowGraph) : Except Error (FlowGraph × Log) := do
  let dominance ← Dominance.ofFlowGraph graph
  let table := graph.paramNames.foldl ValueTable.define {}
  return visitTree dominance.tree table graph

end GlobalNumbering

end Midend
