/-! # Directed graphs

A directed graph on the nodes `0, …, order - 1`, given by its edges in the order in which they were
added. Parallel edges and self-loops are kept: the successors and predecessors of a node are lists
in edge order. -/

namespace Midend

/-- A directed graph on nodes `0, …, order - 1`, as a list of edges. -/
structure Digraph where
  /-- The number of nodes. -/
  order : Nat
  /-- The edges in the order in which they were added. -/
  edges : List (Nat × Nat)
  /-- Both ends of every edge are nodes. -/
  edges_lt : ∀ edge ∈ edges, edge.1 < order ∧ edge.2 < order
  deriving DecidableEq, Repr

namespace Digraph

/-- The graph with `order` nodes and no edge. -/
def discrete (order : Nat) : Digraph := ⟨order, [], by simp⟩

instance : Inhabited Digraph := ⟨discrete 0⟩

/-- The graph with those of the listed edges whose ends are both nodes. -/
def ofEdges (order : Nat) (edges : List (Nat × Nat)) : Digraph :=
  ⟨order, edges.filter fun edge => edge.1 < order ∧ edge.2 < order, by
    intro edge member
    simpa using (List.mem_filter.1 member).2⟩

/-- Adds a node without edges. -/
def addNode (graph : Digraph) : Digraph :=
  ⟨graph.order + 1, graph.edges, fun edge member => by
    have bounds := graph.edges_lt edge member
    omega⟩

/-- Adds an edge between two nodes, or refuses when an end is not a node. -/
def addEdge? (graph : Digraph) (source target : Nat) : Option Digraph :=
  if bounds : source < graph.order ∧ target < graph.order then
    some ⟨graph.order, graph.edges ++ [(source, target)], fun edge member => by
      rcases List.mem_append.1 member with old | new
      · exact graph.edges_lt edge old
      · simp only [List.mem_singleton] at new
        subst new
        exact bounds⟩
  else none

/-- The targets of the edges that leave a node. -/
def successors (graph : Digraph) (node : Nat) : List Nat :=
  (graph.edges.filter (·.1 == node)).map Prod.snd

/-- The sources of the edges that enter a node. -/
def predecessors (graph : Digraph) (node : Nat) : List Nat :=
  (graph.edges.filter (·.2 == node)).map Prod.fst

/-- A successor is the target of an edge. -/
theorem mem_successors {graph : Digraph} {source target : Nat} :
    target ∈ graph.successors source ↔ (source, target) ∈ graph.edges := by
  simp [successors]

/-- A predecessor is the source of an edge. -/
theorem mem_predecessors {graph : Digraph} {source target : Nat} :
    source ∈ graph.predecessors target ↔ (source, target) ∈ graph.edges := by
  simp [predecessors]

/-- Successors are nodes. -/
theorem successors_lt {graph : Digraph} {source target : Nat}
    (member : target ∈ graph.successors source) : target < graph.order :=
  (graph.edges_lt _ (mem_successors.1 member)).2

end Digraph

end Midend
