import Midend.FlowGraph.Edit

/-! # From functions to flow graphs

A function is cut into blocks at labels and after terminators. Blocks without a label are numbered,
an entry without predecessors is put in front if need be, and blocks that run into the next one get
a jump to it. -/

namespace Midend

namespace FlowGraph

/-- A block before it is named: its label, if it has one, and its instructions. -/
abbrev Segment := Option String × List Instr

/-- Whether a segment has a label or an instruction. -/
def Segment.isSome (segment : Segment) : Bool := segment.1.isSome || !segment.2.isEmpty

/-- Cuts instructions into segments, `current` being the segment at work. -/
def cutFrom (current : Segment) : List Instr → List Segment
  | [] => if Segment.isSome current then [current] else []
  | instr :: rest =>
    match instr.action with
    | .label name =>
      if Segment.isSome current then current :: cutFrom (some name, []) rest
      else cutFrom (some name, []) rest
    | _ =>
      let current := (current.1, current.2 ++ [instr])
      if instr.isTerminator then current :: cutFrom (none, []) rest else cutFrom current rest

/-- Cuts instructions into segments, at least one. -/
def cut (instrs : List Instr) : List Segment :=
  match cutFrom (none, []) instrs with
  | [] => [(none, [])]
  | segments => segments

/-- Names the segments: by their labels, or else by numbers that no label takes. Answers the next
number too. -/
def nameSegments (function : String) (labels : List String) (counter : Nat) :
    List Segment → List Block × Nat
  | [] => ([], counter)
  | (some name, instrs) :: rest =>
    let (blocks, counter) := nameSegments function labels counter rest
    (⟨name, instrs⟩ :: blocks, counter)
  | (none, instrs) :: rest =>
    let candidate := numbered function "_"
    let number := firstFree candidate labels.contains labels.length counter
    let (blocks, counter) := nameSegments function labels (number + 1) rest
    (⟨candidate number, instrs⟩ :: blocks, counter)

/-- The blocks of a function as they are written. -/
def ofSegments (function : Func) : Except Error FlowGraph := do
  let segments := cut function.instrs
  let (blocks, nextBlock) :=
    nameSegments function.name (segments.filterMap Prod.fst) 0 segments
  let nextKey := function.maxKey + 1
  if keyLimit ≤ nextKey then throw .keysExhausted
  return { name := function.name, params := function.params, returnType := function.returnType,
           pos := function.pos, blocks, nextKey, nextBlock }

/-- Whether all merges, wherever they stand, name blocks. -/
def checkPhiLabels (graph : FlowGraph) : Except Error Unit :=
  graph.blocks.forM fun block =>
    (block.instrs.filter Instr.isPhi).forM fun phi =>
      match phi.labels.find? fun label => !graph.hasBlock label with
      | some missing =>
        .error (.malformed ("Phi in block '" ++ block.name ++ "' of '" ++ graph.name ++
          "' names unknown block '" ++ missing ++ "'"))
      | none => .ok ()

/-- The flow graph of a function and what had to be added to it. -/
def build (function : Func) : Except Error (FlowGraph × Log) := do
  function.check
  let graph ← ofSegments function
  graph.checkPhiLabels
  let report (kind : Event.Kind) (block : String) : Event :=
    { kind, function := some graph.name, block := some block }
  let (entry, graph) ← graph.addEntry
  let (terminated, graph) ← graph.addTerminators
  return (graph,
    entry.toList.map (report .entryInserted) ++ terminated.map (report .terminatorInserted))

/-- The flow graph of a function. -/
def ofFunc (function : Func) : Except Error FlowGraph := do return (← build function).1

end FlowGraph

end Midend
