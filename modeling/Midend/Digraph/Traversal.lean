import Midend.BitSet
import Midend.Digraph.Basic

/-! # Depth-first traversals

Listings of the nodes reachable from a start node, each computed with an explicit stack: a
discovery order, the post-order and its reverse, and the set of reachable nodes. A start that is
not a node reaches nothing. -/

namespace Midend

namespace Digraph

/-! ## Discovery order -/

/-- Marks the nodes of `targets` one after another; those that were unmarked go on top of the
stack. -/
def pushUnmarked (marked : BitSet) (stack : List Nat) : List Nat → BitSet × List Nat
  | [] => (marked, stack)
  | target :: rest =>
    if marked.contains target then pushUnmarked marked stack rest
    else pushUnmarked (marked.insert target) (target :: stack) rest

/-- Takes nodes from the stack, `budget` at most, pushing the unmarked successors of each. -/
def discoverFrom (graph : Digraph) : (budget : Nat) → BitSet → List Nat → List Nat
  | 0, _, _ => []
  | _ + 1, _, [] => []
  | budget + 1, marked, node :: stack =>
    let (marked, stack) := pushUnmarked marked stack (graph.successors node).reverse
    node :: discoverFrom graph budget marked stack

/-- The reachable nodes in the order in which a stack yields them, when a node is marked as it is
pushed. Each node is pushed once at most, so `order` steps empty the stack. -/
def discoveryOrder (graph : Digraph) (start : Nat) : List Nat :=
  if start < graph.order then
    discoverFrom graph graph.order ((BitSet.empty graph.order).insert start) [start]
  else []

/-- The set of nodes reachable from a start node, itself included. -/
def reachable (graph : Digraph) (start : Nat) : BitSet :=
  (graph.discoveryOrder start).foldl BitSet.insert (BitSet.empty graph.order)

/-! ## Post-order -/

/-- What is left to do at a node of a depth-first search. -/
inductive Visit where
  /-- Visit the node unless it has been visited. -/
  | enter (node : Nat)
  /-- List the node: all that it leads to has been listed. -/
  | leave (node : Nat)
  deriving DecidableEq, Repr

/-- Carries out the pending visits, `budget` at most, and lists the nodes as they are left. -/
def postorderFrom (graph : Digraph) : (budget : Nat) → BitSet → List Visit → List Nat
  | 0, _, _ => []
  | _ + 1, _, [] => []
  | budget + 1, visited, .leave node :: pending =>
    node :: postorderFrom graph budget visited pending
  | budget + 1, visited, .enter node :: pending =>
    if visited.contains node then postorderFrom graph budget visited pending
    else
      let visited := visited.insert node
      let targets := (graph.successors node).filter fun target => !visited.contains target
      postorderFrom graph budget visited (targets.map .enter ++ .leave node :: pending)

/-- The depth-first post-order of the nodes reachable from a start node. A node is left once and
entered once for the start and once for each edge at most, which bounds the visits. -/
def postorder (graph : Digraph) (start : Nat) : List Nat :=
  if start < graph.order then
    postorderFrom graph (graph.order + graph.edges.length + 1) (BitSet.empty graph.order)
      [.enter start]
  else []

/-- The post-order read backwards: a node precedes what it leads to, except along back edges. -/
def reversePostorder (graph : Digraph) (start : Nat) : List Nat := (graph.postorder start).reverse

end Digraph

end Midend
