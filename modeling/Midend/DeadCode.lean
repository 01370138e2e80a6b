import Midend.FlowGraph.Basic
import Midend.Values.Numbering

/-! # Dead code

Instructions without side effects are removed when no instruction of the function reads what they
write, and when what they write is overwritten in their block before it is read. Removal is repeated
until nothing is left to remove. -/

namespace Midend

namespace DeadCode

/-- The name of the pass. -/
def passName : String := "dce"

/-- The variables that some instruction of a flow graph reads. -/
def readVars (graph : FlowGraph) : SortedSet String := .ofList (graph.instrs.flatMap Instr.args)

/-- Whether an instruction only writes a variable that is not among those read. -/
def isUnused (read : SortedSet String) (instr : Instr) : Bool :=
  instr.isPure &&
    match instr.dest? with
    | some dest => !read.contains dest
    | none => false

/-- Removes the instructions of a block that write unread variables. -/
def dropUnused (read : SortedSet String) (place : Place) (block : Block) : Block × Log :=
  let (dead, kept) := block.instrs.partition (isUnused read)
  ({ block with instrs := kept },
    dead.map fun instr => place.report .instructionRemoved ("unused " ++ instr.render))

/-- The places of instructions whose results are overwritten before they are read: a scan with the
writes that are still unread. -/
def overwrittenFrom : (index : Nat) → List Instr → SortedMap String Nat → List Nat
  | _, [], _ => []
  | index, instr :: rest, pending =>
    let pending := instr.args.foldl (fun pending arg => pending.erase arg) pending
    match instr.dest? with
    | none => overwrittenFrom (index + 1) rest pending
    | some dest =>
      let dead := (pending.get? dest).toList
      let pending := pending.erase dest
      let pending := if instr.isPure then pending.insert dest index else pending
      dead ++ overwrittenFrom (index + 1) rest pending

/-- Removes the instructions of a block whose results are overwritten before they are read. -/
def dropOverwritten (place : Place) (block : Block) : Block × Log :=
  let dead := overwrittenFrom 0 block.instrs .empty
  let (gone, kept) := block.instrs.zipIdx.partition fun (_, index) => dead.contains index
  ({ block with instrs := kept.map Prod.fst },
    gone.map fun (instr, _) => place.report .instructionRemoved ("overwritten " ++ instr.render))

/-- Changes the blocks of a flow graph one after another. -/
def changeBlocks (function : String) (change : Place → Block → Block × Log) :
    List Block → List Block × Log
  | [] => ([], [])
  | block :: rest =>
    let (block, log) := change ⟨function, block.name, passName⟩ block
    let (rest, more) := changeBlocks function change rest
    (block :: rest, log ++ more)

/-- One round: unread variables first, then overwritten ones. -/
def round (graph : FlowGraph) : FlowGraph × Log :=
  let (blocks, unused) := changeBlocks graph.name (dropUnused (readVars graph)) graph.blocks
  let (blocks, overwritten) := changeBlocks graph.name dropOverwritten blocks
  ({ graph with blocks }, unused ++ overwritten)

/-- Runs rounds until one removes nothing, `budget` at most; says whether that happened. -/
def rounds : (budget : Nat) → FlowGraph → FlowGraph × Log × Bool
  | 0, graph => (graph, [], false)
  | budget + 1, graph =>
    let (next, log) := round graph
    if log.isEmpty then (graph, [], true)
    else
      let (graph, more, settled) := rounds budget next
      (graph, log ++ more, settled)

/-- How many rounds are run at most: as given, but at least one; by default one more than there are
instructions. -/
def roundLimit (graph : FlowGraph) : Option Nat → Nat
  | some limit => max limit 1
  | none => graph.instructionCount + 1

/-- Removes dead code; the reports say what was removed. -/
def run (graph : FlowGraph) (limit : Option Nat) : FlowGraph × Log × Except Error Unit :=
  let limit := roundLimit graph limit
  let (graph, log, settled) := rounds limit graph
  (graph, log,
    if settled then .ok () else .error (.nonConvergence "dead code elimination" limit))

end DeadCode

end Midend
