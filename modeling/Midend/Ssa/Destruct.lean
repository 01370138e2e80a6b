import Midend.Ssa.Construct

/-! # Out of single assignment

Merges are replaced by copies at the ends of the blocks that their values come from. An edge that
leaves a block with several successors first gets a block of its own. The copies of one block belong
together: they take effect at once, so they are ordered, and broken up with temporaries where they
form a cycle. -/

namespace Midend

namespace Ssa

/-- A copy that takes effect together with others. -/
structure Copy where
  /-- The variable written. -/
  dest : String
  /-- The variable read. -/
  src : String
  /-- The type. -/
  ty : Ty
  deriving DecidableEq, Repr

/-- The place of the first copy that writes what none of the copies reads. -/
def readyCopy? (pending : List Copy) : Option Nat :=
  pending.findIdx? fun copy => !pending.any fun other => other.src == copy.dest

/-- Orders pending copies, `budget` steps at most: a copy is made when nothing reads what it writes;
if there is none, the first one's target is saved in a temporary for its readers. -/
def sequentializeFrom : (budget : Nat) → List Copy → NameSupply → List Instr × NameSupply
  | 0, _, names => ([], names)
  | _ + 1, [], names => ([], names)
  | budget + 1, first :: rest, names =>
    let pending := first :: rest
    match readyCopy? pending with
    | some place =>
      let copy := pending.getD place first
      let (instrs, names) := sequentializeFrom budget (pending.eraseIdx place) names
      (Instr.copy copy.dest copy.ty copy.src :: instrs, names)
    | none =>
      let (temporary, names) := names.fresh (first.dest ++ ".tmp")
      let redirected := pending.map fun copy =>
        if copy.src = first.dest then { copy with src := temporary } else copy
      let (instrs, names) := sequentializeFrom budget redirected names
      (Instr.copy temporary first.ty first.dest :: instrs, names)

/-- Copies in an order that gives every target the value that its source had before all of them.
Saving a target makes its copy ready, so two steps a copy suffice. -/
def sequentialize (copies : List Copy) (names : NameSupply) : List Instr × NameSupply :=
  let pending := copies.filter fun copy => copy.dest ≠ copy.src
  sequentializeFrom (2 * pending.length) pending names

/-- The edges into leading merges from blocks with several successors, each once; a merge that names
a block which does not lead to it is an error. -/
def criticalEdges (graph : FlowGraph) : Except Error (List (String × String)) := do
  let edges ← graph.blocks.mapM fun block => do
    let sources := graph.predecessorsOf block.name
    let labels := block.phis.flatMap Instr.labels
    match labels.find? fun label => !sources.contains label with
    | some label =>
      throw (.malformed ("Phi in '" ++ block.name ++ "' of '" ++ graph.name ++ "' names '" ++
        label ++ "', which is not a predecessor"))
    | none =>
      return (labels.filter fun label => 1 < (graph.successorsOf label).length).map fun label =>
        (label, block.name)
  return edges.flatten.eraseDups

/-- Splits edges one after another. -/
def splitEdges (graph : FlowGraph) : List (String × String) → Except Error (FlowGraph × Log)
  | [] => .ok (graph, [])
  | (source, target) :: rest => do
    let (middle, graph) ← graph.splitEdge source target
    let report := event graph .edgeSplit middle (source ++ " -> " ++ target)
    let (graph, log) ← splitEdges graph rest
    return (graph, report :: log)

/-- The copies that the leading merges of a block stand for, with the blocks they belong to. -/
def copiesOf (block : Block) : List (String × Copy) :=
  block.phis.flatMap fun phi =>
    match phi.dest?, phi.ty? with
    | some dest, some ty => phi.incoming.map fun (label, src) => (label, ⟨dest, src, ty⟩)
    | _, _ => []

/-- The copies of each block, in the order of the merges they come from. -/
def copiesByBlock (graph : FlowGraph) : SortedMap String (List Copy) :=
  (graph.blocks.flatMap copiesOf).foldl
    (fun copies (label, copy) => copies.alter label fun known => known.getD [] ++ [copy]) .empty

/-- Adds the copies of each block at its end. -/
def insertCopies (graph : FlowGraph) (names : NameSupply) :
    List (String × List Copy) → Except Error FlowGraph
  | [] => .ok graph
  | (name, copies) :: rest => do
    let (instrs, names) := sequentialize copies names
    let (keyed, graph) ← graph.freshKeys instrs
    let _ ← graph.block name
    let graph := graph.modifyBlock name fun block => block.insertAt block.insertionPoint keyed
    insertCopies graph names rest

/-- Replaces the leading merges of all blocks by copies. -/
def destruct (graph : FlowGraph) : Except Error (FlowGraph × Log) := do
  let (graph, splits) ← splitEdges graph (← criticalEdges graph)
  let copies := copiesByBlock graph
  let lowered := (graph.blocks.flatMap Block.phis).length
  let graph := { graph with
    blocks := graph.blocks.map fun block => { block with instrs := block.body } }
  let graph ← insertCopies graph (.ofGraph graph) copies.toList
  let report : Event :=
    { kind := .info, function := some graph.name, pass := some passName,
      message := toString lowered ++ " phis lowered to copies" }
  return (graph, splits ++ if lowered = 0 then [] else [report])

end Ssa

end Midend
