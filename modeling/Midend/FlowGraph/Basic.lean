import Midend.Digraph.Traversal
import Midend.Event
import Midend.FlowGraph.Block
import Midend.Sorted.Map

/-! # Flow graphs

The body of a function as basic blocks, the first of which is the entry. Edges are not stored: they
follow from the instructions that end the blocks. The module holds the views of a flow graph (names,
neighbours, its directed graph, its drawing) and the supply of fresh keys, block names and names of
variables. Names are made fresh by a number: candidates are tried in turn until one is not taken, and
distinct candidates outrun any finite set of taken names. -/

namespace Midend

/-! ## Numbered names -/

/-- The first number from `counter` on whose candidate is not taken, after at most `tries` taken
ones. -/
def firstFree (candidate : Nat → String) (taken : String → Bool) : (tries : Nat) → Nat → Nat
  | 0, counter => counter
  | tries + 1, counter =>
    if taken (candidate counter) then firstFree candidate taken tries (counter + 1) else counter

/-- A numbered name: a stem, a separator and a number. -/
def numbered (stem separator : String) (number : Nat) : String :=
  stem ++ separator ++ toString number

/-! ## Labels in drawings -/

/-- A character of a label. Line ends become left-aligned breaks and carriage returns vanish. -/
def escapeLabelChar : Char → String
  | '\\' => "\\\\"
  | '"' => "\\\""
  | '\n' => "\\l"
  | '\r' => ""
  | '<' => "\\<"
  | '>' => "\\>"
  | '\x7b' => "\\\x7b"
  | '\x7d' => "\\\x7d"
  | other => other.toString

/-- A text as it stands inside a quoted label. -/
def escapeLabel (text : String) : String := String.join (text.toList.map escapeLabelChar)

/-! ## Flow graphs -/

/-- A function as basic blocks. -/
structure FlowGraph where
  /-- The name of the function. -/
  name : String
  /-- The parameters in order. -/
  params : List Param
  /-- The type of the result, if there is one. -/
  returnType : Option Ty
  /-- Where the function comes from. -/
  pos : Option Position
  /-- The blocks, the entry first. -/
  blocks : List Block
  /-- The key of the next new instruction. -/
  nextKey : Nat
  /-- The number of the next new block. -/
  nextBlock : Nat
  deriving DecidableEq, Repr

namespace FlowGraph

/-! ## Views -/

/-- Whether two flow graphs have the same code and signature. -/
def sameCode (left right : FlowGraph) : Bool :=
  left.name = right.name ∧ left.params = right.params ∧ left.returnType = right.returnType ∧
    left.blocks = right.blocks

/-- The names of the blocks in order. -/
def names (graph : FlowGraph) : List String := graph.blocks.map Block.name

/-- The names of the parameters in order. -/
def paramNames (graph : FlowGraph) : List String := graph.params.map Param.name

/-- The place of the block of a name. -/
def indexOf? (graph : FlowGraph) (name : String) : Option Nat :=
  graph.blocks.findIdx? fun block => block.name == name

/-- The block of a name. -/
def find? (graph : FlowGraph) (name : String) : Option Block :=
  graph.blocks.find? fun block => block.name == name

/-- Whether there is a block of a name. -/
def hasBlock (graph : FlowGraph) (name : String) : Bool := (graph.find? name).isSome

/-- The block of a name, or the error that there is none. -/
def block (graph : FlowGraph) (name : String) : Except Error Block :=
  match graph.find? name with
  | some block => .ok block
  | none => .error (.unknownBlock name)

/-- The successors of the block of a name. -/
def successorsOf (graph : FlowGraph) (name : String) : List String :=
  match graph.find? name with
  | some block => block.successors
  | none => []

/-- The blocks that lead to a name, in order. -/
def predecessorsOf (graph : FlowGraph) (name : String) : List String :=
  (graph.blocks.filter fun block => block.successors.contains name).map Block.name

/-- The successors of every block. -/
def successorMap (graph : FlowGraph) : SortedMap String (List String) :=
  .ofList (graph.blocks.map fun block => (block.name, block.successors))

/-- The predecessors of every block. -/
def predecessorMap (graph : FlowGraph) : SortedMap String (List String) :=
  .ofList (graph.blocks.map fun block => (block.name, graph.predecessorsOf block.name))

/-- The edges between places of blocks, in block order. -/
def indexEdges (graph : FlowGraph) : List (Nat × Nat) :=
  graph.blocks.zipIdx.flatMap fun (block, source) =>
    block.successors.filterMap fun name => (graph.indexOf? name).map fun target => (source, target)

/-- The directed graph on the places of the blocks. -/
def digraph (graph : FlowGraph) : Digraph := .ofEdges graph.blocks.length graph.indexEdges

/-- All instructions in block order. -/
def instrs (graph : FlowGraph) : List Instr := graph.blocks.flatMap Block.instrs

/-- The number of instructions. -/
def instructionCount (graph : FlowGraph) : Nat := graph.instrs.length

/-! ## Fresh keys and names -/

/-- A key that no instruction has, unless there is none left. -/
def freshKey (graph : FlowGraph) : Except Error (Nat × FlowGraph) :=
  if graph.nextKey + 1 < keyLimit then
    .ok (graph.nextKey, { graph with nextKey := graph.nextKey + 1 })
  else .error .keysExhausted

/-- Gives each of several instructions a fresh key, in order. -/
def freshKeys (graph : FlowGraph) : List Instr → Except Error (List Instr × FlowGraph)
  | [] => .ok ([], graph)
  | instr :: rest => do
    let (key, graph) ← graph.freshKey
    let (rest, graph) ← graph.freshKeys rest
    return (instr.withKey key :: rest, graph)

/-- A name that no block has. -/
def freshBlockName (graph : FlowGraph) : String × FlowGraph :=
  let candidate := numbered graph.name "_"
  let number := firstFree candidate graph.hasBlock graph.blocks.length graph.nextBlock
  (candidate number, { graph with nextBlock := number + 1 })

/-! ## Drawings -/

/-- The text of a block inside a drawing. -/
def blockText (block : Block) : String :=
  block.name ++ ":\n" ++ String.join (block.instrs.map fun instr => "  " ++ instr.render ++ "\n")

/-- A name between quotes. -/
def dotName (name : String) : String := "\"" ++ escapeLabel name ++ "\""

/-- The lines of a drawing for the edges that leave a block; the two ways of a branch are marked. -/
def dotEdges (block : Block) : List String :=
  let labels := match block.terminator? with
    | some terminator => terminator.labels
    | none => []
  labels.zipIdx.map fun (target, place) =>
    let mark :=
      if labels.length ≠ 2 then ""
      else if place = 0 then " [label=\"T\"]"
      else " [label=\"F\"]"
    "  " ++ dotName block.name ++ " -> " ++ dotName target ++ mark ++ ";\n"

/-- A drawing of the flow graph in the DOT format. -/
def toDot (graph : FlowGraph) : String :=
  "digraph " ++ dotName graph.name ++ " \x7b\n" ++
    "  node [shape=box, fontname=\"monospace\"];\n" ++
    String.join (graph.blocks.map fun block =>
      "  " ++ dotName block.name ++ " [label=" ++ dotName (blockText block) ++ "];\n") ++
    String.join (graph.blocks.flatMap dotEdges) ++ "\x7d\n"

end FlowGraph

/-! ## Names of variables -/

/-- Which names are taken, and how far each stem has been counted. -/
structure NameSupply where
  /-- The names that may not be given out. -/
  taken : SortedSet String := .empty
  /-- The next number of each stem that has been used. -/
  counters : SortedMap String Nat := .empty

namespace NameSupply

/-- A supply in which the parameters, destinations and arguments of a flow graph are taken. -/
def ofGraph (graph : FlowGraph) : NameSupply where
  taken := .ofList (graph.paramNames ++ graph.instrs.flatMap fun instr =>
    instr.dest?.toList ++ instr.args)

/-- A new name with the given stem. -/
def fresh (supply : NameSupply) (stem : String) : String × NameSupply :=
  let candidate := numbered stem "."
  let number := firstFree candidate supply.taken.contains supply.taken.size
    (supply.counters.getD stem 0)
  let name := candidate number
  (name, ⟨supply.taken.insert name, supply.counters.insert stem (number + 1)⟩)

end NameSupply

end Midend
