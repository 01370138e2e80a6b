import Midend.FlowGraph.Basic

/-! # Dataflow analysis

An analysis gives every block a state before and after it. Along the direction of the analysis the
states of the neighbours are merged and passed through the block; the solver repeats this for the
blocks on a worklist until nothing changes, and gives up after a limited number of visits. -/

namespace Midend

/-- The direction in which an analysis follows the edges. -/
inductive Direction where
  /-- From predecessors to successors. -/
  | forward
  /-- From successors to predecessors. -/
  | backward
  deriving DecidableEq, Repr

/-- The nodes whose states flow into a node. -/
def Direction.sources (direction : Direction) (graph : Digraph) (node : Nat) : List Nat :=
  match direction with
  | .forward => graph.predecessors node
  | .backward => graph.successors node

/-- The nodes that the state of a node flows into. -/
def Direction.targets (direction : Direction) (graph : Digraph) (node : Nat) : List Nat :=
  match direction with
  | .forward => graph.successors node
  | .backward => graph.predecessors node

/-- An analysis with states in `σ`. -/
structure Analysis (σ : Type) where
  /-- The name used in reports. -/
  name : String
  /-- The direction. -/
  direction : Direction
  /-- What flows into a block that nothing flows into. -/
  boundary : σ
  /-- The state that every block starts from. -/
  initial : σ
  /-- Merges what flows into a block. -/
  merge : List σ → σ
  /-- Passes a state through a block. -/
  transfer : Block → σ → σ
  /-- Passes a state along an edge from one block to another. -/
  edge : Block → Block → σ → σ := fun _ _ state => state

/-- The states that an analysis found. -/
structure Solution (σ : Type) where
  /-- The names of the blocks in order. -/
  names : List String
  /-- The state at the start of each block. -/
  before : List σ
  /-- The state at the end of each block. -/
  after : List σ
  /-- How many times a block was visited. -/
  iterations : Nat

namespace Solution

variable {σ : Type}

/-- The place of a block. -/
def position? (solution : Solution σ) (block : String) : Option Nat :=
  solution.names.findIdx? (· == block)

/-- The state at the start of a block. -/
def before? (solution : Solution σ) (block : String) : Option σ :=
  (solution.position? block).bind (solution.before[·]?)

/-- The state at the end of a block. -/
def after? (solution : Solution σ) (block : String) : Option σ :=
  (solution.position? block).bind (solution.after[·]?)

end Solution

namespace Analysis

variable {σ : Type}

/-- Passes the state of a neighbour along the edge between it and a block. -/
def cross (analysis : Analysis σ) (neighbour block : Block) (state : σ) : σ :=
  match analysis.direction with
  | .forward => analysis.edge neighbour block state
  | .backward => analysis.edge block neighbour state

/-- What flows into a block, given what flows out of all blocks. -/
def gather (analysis : Analysis σ) (blocks : List Block) (graph : Digraph) (outgoing : List σ)
    (node : Nat) (block : Block) : σ :=
  let sources := analysis.direction.sources graph node
  if sources.isEmpty then analysis.boundary
  else
    analysis.merge (sources.filterMap fun source =>
      match blocks[source]?, outgoing[source]? with
      | some neighbour, some state => some (analysis.cross neighbour block state)
      | _, _ => none)

/-- The blocks to visit, in order, without repetition. -/
structure Worklist where
  /-- The blocks in the order of their visits. -/
  queue : List Nat
  /-- The same blocks as a set. -/
  queued : BitSet

/-- Adds the blocks that are not queued yet, in order. -/
def Worklist.push (worklist : Worklist) (nodes : List Nat) : Worklist :=
  nodes.foldl
    (fun worklist node =>
      if worklist.queued.contains node then worklist
      else ⟨worklist.queue ++ [node], worklist.queued.insert node⟩)
    worklist

/-- All blocks: those that the entry reaches in the order that suits the direction, then the others
in ascending order. -/
def Worklist.ofGraph (direction : Direction) (graph : Digraph) : Worklist :=
  let order := match direction with
    | .forward => graph.reversePostorder 0
    | .backward => graph.postorder 0
  (Worklist.mk [] (.empty graph.order)).push (order ++ List.range graph.order)

/-- Visits the blocks of the worklist, `budget` at most. `incoming` and `outgoing` are the states
that flow into and out of each block; the answer has the visits too. It is none when the budget is
spent and blocks are left. -/
def visit [DecidableEq σ] (analysis : Analysis σ) (blocks : List Block) (graph : Digraph) :
    (budget : Nat) → (visits : Nat) → Worklist → (incoming outgoing : List σ) →
      Option (List σ × List σ × Nat)
  | _, visits, ⟨[], _⟩, incoming, outgoing => some (incoming, outgoing, visits)
  | 0, _, ⟨_ :: _, _⟩, _, _ => none
  | budget + 1, visits, ⟨node :: queue, queued⟩, incoming, outgoing =>
    let worklist : Worklist := ⟨queue, queued.erase node⟩
    match blocks[node]?, outgoing[node]? with
    | some block, some old =>
      let merged := analysis.gather blocks graph outgoing node block
      let result := analysis.transfer block merged
      let incoming := incoming.set node merged
      if result = old then
        visit analysis blocks graph budget (visits + 1) worklist incoming outgoing
      else
        let worklist := worklist.push (analysis.direction.targets graph node)
        visit analysis blocks graph budget (visits + 1) worklist incoming (outgoing.set node result)
    | _, _ => visit analysis blocks graph budget (visits + 1) worklist incoming outgoing

/-- The limit of visits per block unless another one is given. -/
def defaultVisitsPerBlock : Nat := 100

/-- Solves an analysis, visiting each block `visitsPerBlock` times on average at most (and once at
least). -/
def solve [DecidableEq σ] (analysis : Analysis σ) (flow : FlowGraph)
    (visitsPerBlock : Nat := defaultVisitsPerBlock) : Except Error (Solution σ) :=
  let graph := flow.digraph
  let start := flow.blocks.map fun _ => analysis.initial
  let limit := max visitsPerBlock 1 * flow.blocks.length
  let worklist := Worklist.ofGraph analysis.direction graph
  match analysis.visit flow.blocks graph limit 0 worklist start start with
  | none => .error (.nonConvergence analysis.name (limit + 1))
  | some (incoming, outgoing, iterations) =>
    match analysis.direction with
    | .forward => .ok ⟨flow.names, incoming, outgoing, iterations⟩
    | .backward => .ok ⟨flow.names, outgoing, incoming, iterations⟩

end Analysis

end Midend
