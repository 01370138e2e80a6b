import Midend.FlowGraph.Basic

/-! # Changing flow graphs

Operations that add or remove blocks: a separate entry, missing terminators, blocks on edges, and
the removal of blocks that no path from the entry reaches. An operation that fails leaves the flow
graph as it was. -/

namespace Midend

namespace FlowGraph

/-- Changes the block of a name. -/
def modifyBlock (graph : FlowGraph) (name : String) (change : Block → Block) : FlowGraph :=
  { graph with
    blocks := graph.blocks.map fun block => if block.name = name then change block else block }

/-- Adds a block at a place; a place past the end counts as the end. -/
def insertBlock (graph : FlowGraph) (place : Nat) (block : Block) : Except Error FlowGraph :=
  if graph.hasBlock block.name then
    .error (.malformed ("Duplicate block '" ++ block.name ++ "' in '" ++ graph.name ++ "'"))
  else
    .ok { graph with blocks := graph.blocks.take place ++ block :: graph.blocks.drop place }

/-- Puts a block in front that jumps to the first one, if that one has predecessors; answers the
name of the new block. -/
def addEntry (graph : FlowGraph) : Except Error (Option String × FlowGraph) :=
  match graph.blocks with
  | [] => .ok (none, graph)
  | first :: _ =>
    if (graph.predecessorsOf first.name).isEmpty then .ok (none, graph)
    else do
      let preferred := graph.name ++ "_entry"
      let (name, graph) :=
        if graph.hasBlock preferred then graph.freshBlockName else (preferred, graph)
      let (key, graph) ← graph.freshKey
      let entry : Block := ⟨name, [(Instr.jmp first.name).withKey key]⟩
      return (some name, { graph with blocks := entry :: graph.blocks })

/-- Ends every block of a list that has no terminator: with a jump to the block after it, or with a
return at the end of the list. Answers the names of the changed blocks. -/
def terminate (graph : FlowGraph) :
    List Block → Except Error (List String × List Block × FlowGraph)
  | [] => .ok ([], [], graph)
  | block :: rest => do
    if block.terminator?.isSome then
      let (changed, rest, graph) ← graph.terminate rest
      return (changed, block :: rest, graph)
    else
      let terminator := match rest with
        | next :: _ => Instr.jmp next.name
        | [] => Instr.ret none
      let (key, graph) ← graph.freshKey
      let block := { block with instrs := block.instrs ++ [terminator.withKey key] }
      let (changed, rest, graph) ← graph.terminate rest
      return (block.name :: changed, block :: rest, graph)

/-- Ends every block that has no terminator; answers the names of the changed blocks. -/
def addTerminators (graph : FlowGraph) : Except Error (List String × FlowGraph) := do
  let (changed, blocks, graph) ← graph.terminate graph.blocks
  return (changed, { graph with blocks })

/-- Removes the blocks that no path from the first one reaches, and the operands of leading merges
that came from them; answers the names of the removed blocks. -/
def removeUnreachable (graph : FlowGraph) : List String × FlowGraph :=
  let reachable := graph.digraph.reachable 0
  let numbered := graph.blocks.zipIdx
  let removed := (numbered.filter fun (_, place) => !reachable.contains place).map fun (block, _) =>
    block.name
  if removed.isEmpty then ([], graph)
  else
    let kept := (numbered.filter fun (_, place) => reachable.contains place).map Prod.fst
    let dropGone (phi : Instr) : Instr :=
      phi.withIncoming (phi.incoming.filter fun (label, _) => !removed.contains label)
    (removed, { graph with blocks := kept.map (Block.mapPhis dropGone) })

/-- Replaces a name by another one. -/
def replaceName (old new : String) (name : String) : String := if name = old then new else name

/-- Puts a new block on the edges between two blocks; answers its name. -/
def splitEdge (graph : FlowGraph) (source target : String) : Except Error (String × FlowGraph) := do
  let some place := graph.indexOf? source | throw (.unknownBlock source)
  if !graph.hasBlock target then throw (.unknownBlock target)
  if !(graph.successorsOf source).contains target then
    throw (.malformed ("No edge " ++ source ++ " -> " ++ target ++ " in '" ++ graph.name ++ "'"))
  let (name, graph) := graph.freshBlockName
  let graph := graph.modifyBlock source
    (Block.mapTerminator (Instr.mapLabels (replaceName target name)))
  let graph := graph.modifyBlock target
    (Block.mapPhis (Instr.mapLabels (replaceName source name)))
  let (key, graph) ← graph.freshKey
  let graph ← graph.insertBlock (place + 1) ⟨name, [(Instr.jmp target).withKey key]⟩
  return (name, graph)

/-- The instructions of blocks with a label in front of each block. -/
def flattenBlocks (graph : FlowGraph) : List Block → Except Error (List Instr)
  | [] => .ok []
  | block :: rest => do
    let (key, graph) ← graph.freshKey
    let rest ← graph.flattenBlocks rest
    return (Instr.label block.name).withKey key :: (block.instrs ++ rest)

/-- The function as a flat list of instructions again. -/
def flatten (graph : FlowGraph) : Except Error Func := do
  let instrs ← graph.flattenBlocks graph.blocks
  return { name := graph.name, params := graph.params, returnType := graph.returnType, instrs,
           pos := graph.pos }

end FlowGraph

end Midend
