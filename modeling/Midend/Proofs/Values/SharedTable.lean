import Midend.Proofs.Values.Scopes
import Midend.Values.Global

/-! # One table for all scopes

Global numbering gives each tree of blocks the table of the block above it. One table does for all of
them if it is rolled back behind each block's tree (`GlobalNumbering.walkTree_eq`): numbering a block
only lets the table grow (`GlobalNumbering.grownFrom_visitBlock`), so that the rollback gives the next
tree the table that its sister had. -/

namespace Midend

open ValueTable (GrownFrom)

/-! ## Numbering lets tables grow -/

namespace Numbering

variable {place : Place} {action : Action} {dest source : String} {ty : Ty} {op : Opcode}

theorem grownFrom_canonicalizeArgs (args : List String) (table : ValueTable) :
    table.GrownFrom (canonicalizeArgs place args table).2.1 := by
  induction args generalizing table with
  | nil => exact .refl table
  | cons arg rest restIH => exact (GrownFrom.numberOrInput table arg).trans (restIH _)

theorem grownFrom_numbersOf (args : List String) (table : ValueTable) :
    table.GrownFrom (numbersOf args table).2 := by
  induction args generalizing table with
  | nil => exact .refl table
  | cons arg rest restIH => exact (GrownFrom.numberOrInput table arg).trans (restIH _)

theorem grownFrom_numberConst (table : ValueTable) (literal : Literal) :
    table.GrownFrom (numberConst table action dest literal).table := by
  unfold numberConst
  split
  · exact .refl table
  · exact .push table _ _ _

theorem grownFrom_numberCopy (table : ValueTable) :
    table.GrownFrom (numberCopy place table action dest ty source).table := by
  have asked := GrownFrom.numberOrInput table source
  unfold numberCopy
  dsimp only
  split <;> exact asked

theorem grownFrom_numberNew (table : ValueTable) (numbers : List Nat) (expr : Expr) :
    table.GrownFrom (numberNew place table action dest ty op numbers expr).table := by
  unfold numberNew
  dsimp only
  split
  · -- A folded expression is found by its number or gets a row.
    split
    · exact .index table _ _
    · exact .push table _ _ _
  · exact .push table _ _ _

theorem grownFrom_numberPure (table : ValueTable) (args : List String) :
    table.GrownFrom (numberPure place table action dest ty op args).table := by
  have asked := grownFrom_numbersOf args table
  unfold numberPure
  dsimp only
  split
  · exact asked.trans (grownFrom_numberNew _ _ _)
  · split <;> exact asked

/-- Numbering what an instruction writes lets the table grow. -/
theorem grownFrom_numberWrite (table : ValueTable) :
    table.GrownFrom (numberWrite place table action dest ty).table := by
  have unknown := GrownFrom.pushOpaque table dest
  unfold numberWrite
  dsimp only
  split
  · exact grownFrom_numberConst table _
  · split
    · exact grownFrom_numberCopy table
    · split
      · exact grownFrom_numberPure table _
      · exact unknown
  · exact unknown

/-- Numbering an instruction lets the table grow. -/
theorem grownFrom_numberInstr (table : ValueTable) (instr : Instr) :
    table.GrownFrom (numberInstr place table instr).2.1 := by
  have asked : table.GrownFrom (canonicalizeArgs place instr.args table).2.1 :=
    grownFrom_canonicalizeArgs instr.args table
  unfold numberInstr
  split
  · exact .refl table
  · dsimp only
    split
    · -- The variable is bound after its value was numbered, whatever that took.
      exact asked.trans ((grownFrom_numberWrite _).trans (.bind _ _ _))
    · exact asked

end Numbering

namespace GlobalNumbering

variable {place : Place}

/-- Numbering a merge lets the table grow. -/
theorem grownFrom_numberPhi (table : ValueTable) (instr : Instr) :
    table.GrownFrom (numberPhi place table instr).2.1 := by
  unfold numberPhi
  split
  · rename_i dest ty operands isCompute
    split
    · exact (GrownFrom.pushOpaque table dest).trans (.bind _ _ _)
    · dsimp only
      split
      · exact .bind table _ _
      · exact (GrownFrom.push table _ dest none).trans (.bind _ _ _)
  · exact .refl table

/-- Steps that let the table grow do so one after another. -/
theorem grownFrom_numberAll {step : ValueTable → Instr → Instr × ValueTable × Log}
    (grows : ∀ (table : ValueTable) (instr : Instr), table.GrownFrom (step table instr).2.1)
    (instrs : List Instr) (table : ValueTable) :
    table.GrownFrom (numberAll step instrs table).2.1 := by
  induction instrs generalizing table with
  | nil => exact .refl table
  | cons instr rest restIH => exact (grows table instr).trans (restIH _)

/-- Numbering a block lets the table grow. -/
theorem grownFrom_visitBlock (name : String) (table : ValueTable) (graph : FlowGraph) :
    table.GrownFrom (visitBlock name table graph).2.1 := by
  unfold visitBlock
  split
  · exact .refl table
  · exact (grownFrom_numberAll grownFrom_numberPhi _ table).trans
      (grownFrom_numberAll Numbering.grownFrom_numberInstr _ _)

/-! ## One table for a tree -/

mutual

/-- Numbers the blocks of a dominator tree with one table, which is rolled back in the end to what it
was in front of the tree. -/
def walkTree : Dominance.Tree → ValueTable → FlowGraph → FlowGraph × ValueTable × Log
  | .node name children, table, graph =>
    let mark := table.checkpoint
    let (graph, table, log) := visitBlock name table graph
    let (graph, table, more) := walkTrees children table graph
    (graph, table.rollback mark, log ++ more)

/-- Numbers the blocks of several trees with one table. -/
def walkTrees : List Dominance.Tree → ValueTable → FlowGraph → FlowGraph × ValueTable × Log
  | [], table, graph => (graph, table, [])
  | tree :: rest, table, graph =>
    let (graph, table, log) := walkTree tree table graph
    let (graph, table, more) := walkTrees rest table graph
    (graph, table, log ++ more)

end

mutual

/-- With one table that is rolled back a tree is numbered as with one table for each block, and the
table is afterwards what it was before. -/
theorem walkTree_eq (tree : Dominance.Tree) (table : ValueTable) (graph : FlowGraph) :
    walkTree tree table graph =
      ((visitTree tree table graph).1, table, (visitTree tree table graph).2) := by
  cases tree with
  | node name children =>
    -- The children leave the block's table as they found it, so that the rollback takes back what the
    -- block did and nothing else.
    have restored := (grownFrom_visitBlock name table graph).rollback
    simp only [walkTree, visitTree, walkTrees_eq children, restored]

/-- The trees below a block all start with the table of that block. -/
theorem walkTrees_eq (trees : List Dominance.Tree) (table : ValueTable) (graph : FlowGraph) :
    walkTrees trees table graph =
      ((visitTrees trees table graph).1, table, (visitTrees trees table graph).2) := by
  cases trees with
  | nil => rfl
  | cons tree rest => simp only [walkTrees, visitTrees, walkTree_eq tree, walkTrees_eq rest]

end

/-- Global numbering with one table for the whole flow graph. -/
theorem run_eq_walkTree (graph : FlowGraph) : run graph = do
    let dominance ← Dominance.ofFlowGraph graph
    let table := graph.paramNames.foldl ValueTable.define {}
    let (graph, _, log) := walkTree dominance.tree table graph
    return (graph, log) := by
  unfold run
  simp only [walkTree_eq]

end GlobalNumbering

end Midend
