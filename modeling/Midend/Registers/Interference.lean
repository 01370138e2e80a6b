import Midend.Dataflow.Liveness

/-! # Interference

Variables that cannot share a register because both hold a value at the same time, as an undirected
graph: every variable is mapped to its neighbours. -/

namespace Midend

/-- Which variables cannot share a register. -/
structure Interference where
  /-- The neighbours of every variable. -/
  neighborMap : SortedMap String (SortedSet String) := .empty
  deriving DecidableEq

namespace Interference

/-! ## Questions -/

/-- The variables in order. -/
def nodes (graph : Interference) : List String := graph.neighborMap.keys

/-- The number of variables. -/
def size (graph : Interference) : Nat := graph.neighborMap.size

/-- Whether there is no variable. -/
def isEmpty (graph : Interference) : Bool := graph.neighborMap.isEmpty

/-- Whether a variable is in the graph. -/
def contains (graph : Interference) (node : String) : Bool := graph.neighborMap.contains node

/-- The neighbours of a variable. -/
def neighbors (graph : Interference) (node : String) : SortedSet String :=
  graph.neighborMap.getD node .empty

/-- The number of neighbours of a variable. -/
def degree (graph : Interference) (node : String) : Nat := (graph.neighbors node).size

/-- Whether two variables cannot share a register. -/
def interferes (graph : Interference) (left right : String) : Bool :=
  (graph.neighbors left).contains right

/-- The pairs of neighbours, each once, the lesser one first. -/
def edges (graph : Interference) : List (String × String) :=
  graph.neighborMap.toList.flatMap fun (node, neighbors) =>
    (neighbors.toList.filter fun other => node < other).map fun other => (node, other)

/-! ## Changes -/

/-- Adds a variable. -/
def addNode (graph : Interference) (node : String) : Interference :=
  ⟨graph.neighborMap.insertIfNew node .empty⟩

/-- Makes a variable a neighbour of another one, but not the other way round. -/
def addNeighbor (graph : Interference) (node other : String) : Interference :=
  ⟨graph.neighborMap.alter node fun known => (known.getD .empty).insert other⟩

/-- Makes two variables neighbours; no variable is its own neighbour. -/
def addEdge (graph : Interference) (left right : String) : Interference :=
  if left = right then graph else (graph.addNeighbor left right).addNeighbor right left

/-- Makes a variable a neighbour of each of several others. -/
def addEdges (graph : Interference) (node : String) (others : List String) : Interference :=
  others.foldl (fun graph other => graph.addEdge node other) graph

/-- Removes a variable and its edges. -/
def removeNode (graph : Interference) (node : String) : Interference :=
  ⟨(graph.neighborMap.erase node).mapValues fun _ neighbors => neighbors.erase node⟩

/-- Gives the edges of a variable to another one and removes it. -/
def merge (graph : Interference) (source target : String) : Interference :=
  match graph.neighborMap.get? source with
  | some neighbors =>
    ((graph.removeNode source).addNode target).addEdges target neighbors.toList
  | none => graph

/-! ## The interference of a flow graph -/

/-- Makes each of a list of variables a neighbour of those after it. -/
def addClique (graph : Interference) : List String → Interference
  | [] => graph
  | node :: rest => ((graph.addNode node).addEdges node rest).addClique rest

/-- Adds the variables of an instruction; the one that it writes gets those live after it as
neighbours. -/
def addInstr (graph : Interference) (instr : Instr) (live : SortedSet String) : Interference :=
  let graph := instr.args.foldl addNode graph
  match instr.dest? with
  | some dest => (graph.addNode dest).addEdges dest live.toList
  | none => graph

/-- Adds the instructions of a block, given the variables live at its end. -/
def addBlock (graph : Interference) (block : Block) (live : SortedSet String) : Interference :=
  (block.instrs.zip (Liveness.afterEach block.instrs live)).foldl
    (fun graph (instr, live) => graph.addInstr instr live) graph

/-- The interference of a flow graph whose live variables are known. Parameters get their values at
the same time, together with whatever else is live at the entry. -/
def ofLiveness (graph : FlowGraph) (live : Solution (SortedSet String)) : Interference :=
  let params := graph.paramNames
  let atEntry := match graph.blocks.head? with
    | some entry => (live.before? entry.name).getD .empty
    | none => .empty
  let start := params.foldl (fun known param => known.addEdges param atEntry.toList)
    (addClique {} params)
  graph.blocks.foldl
    (fun known block => known.addBlock block ((live.after? block.name).getD .empty)) start

end Interference

end Midend
