import Midend.FlowGraph.Basic
import Midend.Values.Numbering

/-! # Local value numbering

Each block is numbered on its own. A variable that is written again later in the block gets a fresh
name for its earlier value, so that the value stays available. -/

namespace Midend

namespace LocalNumbering

/-- The name of the pass. -/
def passName : String := "lvn"

/-- What numbering a block carries along. -/
structure State where
  /-- The values so far. -/
  table : ValueTable := {}
  /-- The fresh names of variables that are written again. -/
  renamed : SortedMap String String := .empty
  /-- The supply of names. -/
  names : NameSupply

/-- Gives the variable that an instruction writes a fresh name if `later` instructions write it
again. -/
def renameWrite (place : Place) (instr : Instr) (later : List Instr) (state : State) :
    Instr × State × Log :=
  match instr.dest? with
  | none => (instr, state, [])
  | some dest =>
    if later.any fun other => other.dest? = some dest then
      let (name, names) := state.names.fresh dest
      (instr.mapDest (fun _ => name),
        { state with renamed := state.renamed.insert dest name, names },
        [place.report .info ("renamed overwritten " ++ dest ++ " to " ++ name)])
    else (instr, { state with renamed := state.renamed.erase dest }, [])

/-- Numbers the instructions of a block in order. A merge only gives its variable a new value. -/
def numberInstrs (place : Place) : List Instr → State → List Instr × State × Log
  | [], state => ([], state, [])
  | instr :: rest, state =>
    if instr.isPhi then
      let table := instr.dest?.toList.foldl .define state.table
      let (rest, state, log) := numberInstrs place rest { state with table }
      (instr :: rest, state, log)
    else
      let instr := instr.mapArgs fun arg => state.renamed.getD arg arg
      let (instr, state, reports) := renameWrite place instr rest state
      let (instr, table, changes) := Numbering.numberInstr place state.table instr
      let (rest, state, log) := numberInstrs place rest { state with table }
      (instr :: rest, state, reports ++ changes ++ log)

/-- Numbers blocks one after another, each with a table of its own. -/
def numberBlocks (function : String) :
    List Block → NameSupply → List Block × NameSupply × Log
  | [], names => ([], names, [])
  | block :: rest, names =>
    let place : Place := ⟨function, block.name, passName⟩
    let (instrs, state, log) := numberInstrs place block.instrs { names }
    let (rest, names, more) := numberBlocks function rest state.names
    ({ block with instrs } :: rest, names, log ++ more)

/-- Numbers the blocks of a flow graph; the reports say what was changed. -/
def run (graph : FlowGraph) : FlowGraph × Log :=
  let (blocks, _, log) := numberBlocks graph.name graph.blocks (.ofGraph graph)
  ({ graph with blocks }, log)

end LocalNumbering

end Midend
