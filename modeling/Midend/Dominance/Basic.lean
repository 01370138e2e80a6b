import Midend.FlowGraph.Basic

/-! # Dominance

A block dominates another when every path from the entry to the other passes through it. The
dominator sets are found by iteration from above over the blocks in reverse post-order; the tree of
immediate dominators and the dominance frontiers are read off them. Blocks that the entry does not
reach take no part. -/

namespace Midend

/-- Which blocks dominate which, in a graph of named blocks. -/
structure Dominance where
  /-- The names of the blocks in ascending order; blocks are numbered by their place here. -/
  names : List String
  /-- The entry. -/
  entry : Nat
  /-- The edges. -/
  graph : Digraph
  /-- The blocks that the entry reaches. -/
  reachable : BitSet
  /-- The dominators of each block. -/
  dominatorSets : List BitSet
  /-- The immediate dominator of each block that has one. -/
  parents : List (Option Nat)
  deriving DecidableEq, Repr

namespace Dominance

/-! ## Dominator sets -/

/-- The set at a place, or the empty one. -/
def setAt (sets : List BitSet) (node : Nat) : BitSet := sets.getD node (.empty 0)

/-- What the dominators of a node must be, given those of its predecessors: what dominates all of
them, and the node itself. -/
def refine (graph : Digraph) (reachable : BitSet) (sets : List BitSet) (node : Nat) : BitSet :=
  let sources := (graph.predecessors node).filter reachable.contains
  (sources.foldl (fun common source => common.inter (setAt sets source)) reachable).insert node

/-- Refines the sets of the given nodes one after another. -/
def refineAll (graph : Digraph) (reachable : BitSet) (nodes : List Nat) (sets : List BitSet) :
    List BitSet :=
  nodes.foldl (fun sets node => sets.set node (refine graph reachable sets node)) sets

/-- Refines the sets until a pass changes nothing, in at most `budget` passes. -/
def settle (graph : Digraph) (reachable : BitSet) (nodes : List Nat) :
    (budget : Nat) → List BitSet → Option (List BitSet)
  | 0, _ => none
  | budget + 1, sets =>
    let refined := refineAll graph reachable nodes sets
    if refined = sets then some sets else settle graph reachable nodes budget refined

/-- The dominators of every node, unless the iteration needs more than two passes beyond the number
of nodes. -/
def dominatorSets? (graph : Digraph) (entry : Nat) : Option (List BitSet) :=
  let order := graph.reversePostorder entry
  let reachable := order.foldl BitSet.insert (.empty graph.order)
  let start := (List.range graph.order).map fun node =>
    if node = entry then (BitSet.empty graph.order).insert entry
    else if reachable.contains node then reachable
    else .empty graph.order
  settle graph reachable (order.filter (· ≠ entry)) (graph.order + 2) start

/-- The immediate dominator of a node: the dominator that has one dominator less. -/
def parent? (sets : List BitSet) (node : Nat) : Option Nat :=
  let dominators := setAt sets node
  let size := dominators.count
  dominators.toList.find? fun other => other ≠ node ∧ (setAt sets other).count + 1 = size

/-! ## Construction -/

/-- The edges of a map of successors between the places of its keys; a successor that is no key is
an error. -/
def edgesOf (names : List String) (successors : SortedMap String (List String)) :
    Except Error (List (Nat × Nat)) := do
  let edges ← successors.values.zipIdx.mapM fun (targets, source) =>
    targets.mapM fun target =>
      match names.findIdx? (· == target) with
      | some place => Except.ok (source, place)
      | none => .error (.unknownBlock target)
  return edges.flatten

/-- The dominance of a map of successors with a given entry. -/
def ofSuccessors (successors : SortedMap String (List String)) (entry : String) :
    Except Error Dominance := do
  let names := successors.keys
  let edges ← edgesOf names successors
  let some entry := names.findIdx? (· == entry) | throw (.unknownBlock entry)
  let graph := Digraph.ofEdges names.length edges
  let some dominatorSets := dominatorSets? graph entry
    | throw (.nonConvergence "dominators" (graph.order + 3))
  let reachable := graph.reachable entry
  let parents := (List.range graph.order).map fun node =>
    if node ≠ entry ∧ reachable.contains node then parent? dominatorSets node else none
  return { names, entry, graph, reachable, dominatorSets, parents }

/-- The dominance of a flow graph. -/
def ofFlowGraph (graph : FlowGraph) : Except Error Dominance :=
  match graph.blocks with
  | [] => .error (.malformed ("CFG of '" ++ graph.name ++ "' has no blocks"))
  | entry :: _ => ofSuccessors graph.successorMap entry.name

/-! ## Questions by number -/

/-- The name of a node. -/
def nameOf (dominance : Dominance) (node : Nat) : String := dominance.names.getD node ""

/-- The number of a reachable block. -/
def index? (dominance : Dominance) (name : String) : Option Nat :=
  (dominance.names.findIdx? (· == name)).filter dominance.reachable.contains

/-- Whether one node dominates another. -/
def dominatesNode (dominance : Dominance) (upper lower : Nat) : Bool :=
  (setAt dominance.dominatorSets lower).contains upper

/-- The nodes whose immediate dominator is the given one, in ascending order. -/
def childNodes (dominance : Dominance) (node : Nat) : List Nat :=
  dominance.reachable.toList.filter fun child => dominance.parents.getD child none = some node

/-- The nodes just beyond those that a node dominates: successors of dominated nodes that the node
does not strictly dominate. -/
def frontierNodes (dominance : Dominance) (node : Nat) : BitSet :=
  let dominated := dominance.reachable.toList.filter (dominance.dominatesNode node)
  let beyond := (dominated.flatMap dominance.graph.successors).filter fun target =>
    !(target ≠ node && dominance.dominatesNode node target)
  beyond.foldl BitSet.insert (.empty dominance.graph.order)

/-! ## Questions by name -/

/-- The name of the entry. -/
def entryName (dominance : Dominance) : String := dominance.nameOf dominance.entry

/-- The reachable blocks in ascending order. -/
def blocks (dominance : Dominance) : List String := dominance.reachable.toList.map dominance.nameOf

/-- Whether a block is reachable. -/
def contains (dominance : Dominance) (name : String) : Bool := (dominance.index? name).isSome

/-- Whether one block dominates another. -/
def dominates (dominance : Dominance) (upper lower : String) : Bool :=
  match dominance.index? upper, dominance.index? lower with
  | some upper, some lower => dominance.dominatesNode upper lower
  | _, _ => false

/-- Whether one block dominates another and is not that one. -/
def strictlyDominates (dominance : Dominance) (upper lower : String) : Bool :=
  upper ≠ lower && dominance.dominates upper lower

/-- The dominators of a block in ascending order. -/
def dominators (dominance : Dominance) (name : String) : List String :=
  match dominance.index? name with
  | some node => (setAt dominance.dominatorSets node).toList.map dominance.nameOf
  | none => []

/-- The blocks that a block dominates, in ascending order. -/
def dominatedBy (dominance : Dominance) (name : String) : List String :=
  match dominance.index? name with
  | some node =>
    (dominance.reachable.toList.filter (dominance.dominatesNode node)).map dominance.nameOf
  | none => []

/-- The immediate dominator of a block. -/
def immediateDominator? (dominance : Dominance) (name : String) : Option String :=
  match dominance.index? name with
  | some node => (dominance.parents.getD node none).map dominance.nameOf
  | none => none

/-- The blocks whose immediate dominator is the given one, in ascending order. -/
def children (dominance : Dominance) (name : String) : List String :=
  match dominance.index? name with
  | some node => (dominance.childNodes node).map dominance.nameOf
  | none => []

/-- The dominance frontier of a block in ascending order. -/
def frontier (dominance : Dominance) (name : String) : List String :=
  match dominance.index? name with
  | some node => (dominance.frontierNodes node).toList.map dominance.nameOf
  | none => []

/-- The number of strict dominators of a block. -/
def depth? (dominance : Dominance) (name : String) : Option Nat :=
  (dominance.index? name).map fun node => (setAt dominance.dominatorSets node).count - 1

/-! ## The dominator tree -/

/-- A tree of named blocks. -/
inductive Tree where
  /-- A block and the trees below it. -/
  | node (name : String) (children : List Tree)
  deriving Repr, Inhabited

mutual

/-- The names of a tree, each before those below it. -/
def Tree.preorder : Tree → List String
  | .node name children => name :: preorderAll children

/-- The names of several trees, one after the other. -/
def Tree.preorderAll : List Tree → List String
  | [] => []
  | tree :: rest => tree.preorder ++ preorderAll rest

end

/-- The tree below a node, cut off at a depth. -/
def treeFrom (dominance : Dominance) : (depth : Nat) → Nat → Tree
  | 0, node => .node (dominance.nameOf node) []
  | depth + 1, node =>
    .node (dominance.nameOf node) ((dominance.childNodes node).map (treeFrom dominance depth))

/-- The dominator tree. No path in it is longer than there are blocks. -/
def tree (dominance : Dominance) : Tree := dominance.treeFrom dominance.graph.order dominance.entry

/-- The reachable blocks, each after its immediate dominator. -/
def preorder (dominance : Dominance) : List String := dominance.tree.preorder

end Dominance

end Midend
