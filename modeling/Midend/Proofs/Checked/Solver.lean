import Midend.Proofs.Checked.FlowGraph
import Midend.Proofs.Dataflow.Equations

/-! # Checked dataflow analysis

The solver keeps its worklist in a bit set with a place for each block, and looks up blocks and states
by their places. All blocks that it meets are sources or targets of edges, so their places are inside
and the checks pass (`Checked.solve?_eq`); so do those on the states of its solution
(`Checked.stateAt?_eq`). -/

namespace Midend

namespace Checked

open Analysis

variable {σ : Type}

/-! ## Worklists -/

/-- Adds the blocks that are not queued yet, in order. -/
def enqueue? (worklist : Worklist) (nodes : List Nat) : Option Worklist :=
  nodes.foldlM
    (fun worklist node => do
      let (absent, queued) ← insertBit? worklist.queued node
      return ⟨if absent then worklist.queue ++ [node] else worklist.queue, queued⟩)
    worklist

/-- All blocks: those that the entry reaches in the order that suits the direction, then the others
in ascending order. -/
def seed? (direction : Direction) (graph : Digraph) : Option Worklist := do
  let order ← match direction with
    | .forward => (postorder? graph 0).map List.reverse
    | .backward => postorder? graph 0
  enqueue? ⟨[], .empty graph.order⟩ (order ++ List.range graph.order)

/-! ## Visits -/

/-- What flows into a block, given what flows out of all blocks. -/
def gather? (analysis : Analysis σ) (blocks : List Block) (graph : Digraph) (outgoing : List σ)
    (node : Nat) (block : Block) : Option σ :=
  let sources := analysis.direction.sources graph node
  if sources.isEmpty then some analysis.boundary
  else do
    let states ← sources.mapM fun source => do
      let neighbour ← blocks[source]?
      let state ← outgoing[source]?
      return analysis.cross neighbour block state
    return analysis.merge states

/-- Visits the blocks of the worklist, `budget` at most. -/
def visit? [DecidableEq σ] (analysis : Analysis σ) (blocks : List Block) (graph : Digraph) :
    (budget : Nat) → (visits : Nat) → Worklist → (incoming outgoing : List σ) →
      Option (Option (List σ × List σ × Nat))
  | _, visits, ⟨[], _⟩, incoming, outgoing => some (some (incoming, outgoing, visits))
  | 0, _, ⟨node :: _, queued⟩, _, _ => (removeBit? queued node).map fun _ => none
  | budget + 1, visits, ⟨node :: queue, queued⟩, incoming, outgoing => do
    let (_, queued) ← removeBit? queued node
    let block ← blocks[node]?
    let merged ← gather? analysis blocks graph outgoing node block
    let result := analysis.transfer block merged
    let incoming ← put? incoming node merged
    let old ← outgoing[node]?
    if result = old then
      visit? analysis blocks graph budget (visits + 1) ⟨queue, queued⟩ incoming outgoing
    else
      let outgoing ← put? outgoing node result
      let worklist ← enqueue? ⟨queue, queued⟩ (analysis.direction.targets graph node)
      visit? analysis blocks graph budget (visits + 1) worklist incoming outgoing

/-- Solves an analysis, visiting each block `visitsPerBlock` times on average at most (and once at
least). -/
def solve? [DecidableEq σ] (analysis : Analysis σ) (indexed : Indexed)
    (visitsPerBlock : Nat := defaultVisitsPerBlock) : Checked (Solution σ) := do
  let flow := indexed.graph
  let graph ← ofOption indexed.digraph?
  let start := flow.blocks.map fun _ => analysis.initial
  let limit := max visitsPerBlock 1 * flow.blocks.length
  let worklist ← ofOption (seed? analysis.direction graph)
  match ← ofOption (visit? analysis flow.blocks graph limit 0 worklist start start) with
  | none => throw (.nonConvergence analysis.name (limit + 1))
  | some (incoming, outgoing, iterations) =>
    match analysis.direction with
    | .forward => return ⟨flow.names, incoming, outgoing, iterations⟩
    | .backward => return ⟨flow.names, outgoing, incoming, iterations⟩

/-- The state at a block. -/
def stateAt? (solution : Solution σ) (states : List σ) (block : String) : Option (Option σ) :=
  match solution.position? block with
  | some place => states[place]?.map some
  | none => some none

/-! ## The checks on worklists -/

/-- A worklist of blocks of a graph. -/
structure Within (graph : Digraph) (worklist : Worklist) : Prop where
  /-- The set is one. -/
  fits : worklist.queued.Fits
  /-- It has room for all blocks. -/
  capacity_eq : worklist.queued.capacity = graph.order
  /-- Only blocks are queued. -/
  queue_lt : ∀ node ∈ worklist.queue, node < graph.order

variable {graph : Digraph}

/-- The checks on additions to a worklist pass. -/
theorem enqueue?_eq {worklist : Worklist} (within : Within graph worklist) {nodes : List Nat}
    (below : ∀ node ∈ nodes, node < graph.order) :
    enqueue? worklist nodes = some (worklist.push nodes) ∧ Within graph (worklist.push nodes) := by
  refine foldlM_eq_some (Within graph) within fun state inside node member => ?_
  have nodeBelow := below node member
  rw [insertBit?_eq inside.fits (inside.capacity_eq ▸ nodeBelow), some_bind]
  cases known : state.queued.contains node with
  | true =>
    rw [inside.fits.insert_of_mem known]
    exact ⟨rfl, inside⟩
  | false =>
    refine ⟨rfl, inside.fits.insert node, (BitSet.capacity_insert ..).trans inside.capacity_eq,
      fun other queued => ?_⟩
    rcases List.mem_append.1 queued with earlier | isNode
    · exact inside.queue_lt other earlier
    · exact List.mem_singleton.1 isNode ▸ nodeBelow

/-- The checks on the first worklist pass. -/
theorem seed?_eq (direction : Direction) (graph : Digraph) :
    seed? direction graph = some (.ofGraph direction graph) ∧
      Within graph (.ofGraph direction graph) := by
  have start : Within graph ⟨[], .empty graph.order⟩ :=
    ⟨BitSet.fits_empty _, rfl, List.forall_mem_nil _⟩
  have below : ∀ node ∈ graph.postorder 0, node < graph.order := by
    intro node member
    by_cases isNode : 0 < graph.order
    · exact Digraph.lt_of_reaches isNode ((Digraph.mem_postorder isNode).1 member)
    · rw [Digraph.postorder, if_neg isNode] at member
      cases member
  unfold seed?
  rw [postorder?_eq]
  cases direction with
  | forward =>
    refine enqueue?_eq start fun node member => ?_
    rw [List.mem_append, List.mem_reverse, List.mem_range] at member
    exact member.elim (below node) id
  | backward =>
    refine enqueue?_eq start fun node member => ?_
    rw [List.mem_append, List.mem_range] at member
    exact member.elim (below node) id

/-! ## The checks on visits -/

variable {analysis : Analysis σ} {blocks : List Block}

/-- The checks on what flows into a block pass. -/
theorem gather?_eq (order : graph.order = blocks.length) {outgoing : List σ}
    (length : outgoing.length = blocks.length) (node : Nat) (block : Block) :
    gather? analysis blocks graph outgoing node block =
      some (analysis.gather blocks graph outgoing node block) := by
  rw [gather?, gather_eq]
  split
  · rfl
  · rename_i sends
    -- What is looked up is there, so the sources that are passed over are none.
    suffices states : ∀ sources : List Nat, (∀ source ∈ sources, source < graph.order) →
        (sources.mapM fun source => do
          let neighbour ← blocks[source]?
          let state ← outgoing[source]?
          return analysis.cross neighbour block state) =
        some (sources.filterMap (analysis.sent? blocks outgoing block)) by
      rw [states _ fun source => Direction.sources_lt]
      rfl
    intro sources below
    induction sources with
    | nil => rfl
    | cons first rest restIH =>
      rw [List.forall_mem_cons] at below
      have inside : first < blocks.length := order ▸ below.1
      rw [List.mapM_cons, restIH below.2, List.filterMap_cons, sent?,
        List.getElem?_eq_getElem inside, List.getElem?_eq_getElem (length.symm ▸ inside)]
      rfl

/-- The checks on visits pass. -/
theorem visit?_eq [DecidableEq σ] (order : graph.order = blocks.length) (budget visits : Nat)
    {worklist : Worklist} (within : Within graph worklist) {incoming outgoing : List σ}
    (lengths : incoming.length = blocks.length ∧ outgoing.length = blocks.length) :
    visit? analysis blocks graph budget visits worklist incoming outgoing =
      some (analysis.visit blocks graph budget visits worklist incoming outgoing) := by
  induction budget generalizing visits worklist incoming outgoing with
  | zero =>
    match worklist, within with
    | ⟨[], _⟩, _ => rfl
    | ⟨node :: _, queued⟩, ⟨fits, capacity, below⟩ =>
      rw [visit?, removeBit?_eq fits (capacity ▸ below node (List.mem_cons_self ..))]
      rfl
  | succ budget budgetIH =>
    match worklist, within with
    | ⟨[], _⟩, _ => rfl
    | ⟨node :: queue, queued⟩, ⟨fits, capacity, below⟩ =>
      have nodeBelow : node < graph.order := below node (List.mem_cons_self ..)
      -- The node is taken off the queue and out of the set of queued nodes alike.
      have popped : Within graph ⟨queue, queued.erase node⟩ :=
        ⟨fits.erase node, (BitSet.capacity_erase ..).trans capacity,
          fun other member => below other (List.mem_cons_of_mem _ member)⟩
      have isBlock := List.getElem?_eq_getElem (order ▸ nodeBelow : node < blocks.length)
      have isOld := List.getElem?_eq_getElem
        (lengths.2.symm ▸ order ▸ nodeBelow : node < outgoing.length)
      rw [visit?, removeBit?_eq fits (capacity ▸ nodeBelow), some_bind, Analysis.visit]
      dsimp only
      rw [isBlock, some_bind, gather?_eq order lengths.2, some_bind,
        put?_eq (lengths.1.symm ▸ order ▸ nodeBelow), some_bind, isOld, some_bind]
      dsimp only
      split
      · exact budgetIH (visits + 1) popped ⟨by rw [List.length_set, lengths.1], lengths.2⟩
      · obtain ⟨pushes, pushed⟩ := enqueue?_eq popped fun target =>
          @Direction.targets_lt analysis.direction graph node target
        rw [put?_eq (lengths.2.symm ▸ order ▸ nodeBelow), some_bind, pushes, some_bind]
        exact budgetIH (visits + 1) pushed
          ⟨by rw [List.length_set, lengths.1], by rw [List.length_set, lengths.2]⟩

/-- The checks on solving an analysis pass. -/
theorem solve?_eq [DecidableEq σ] (analysis : Analysis σ) {flow : FlowGraph}
    (nodup : flow.names.Nodup) (visitsPerBlock : Nat) :
    solve? analysis (.of flow) visitsPerBlock = ofExcept (analysis.solve flow visitsPerBlock) := by
  obtain ⟨seeds, within⟩ := seed?_eq analysis.direction flow.digraph
  rw [solve?, digraph?_eq nodup, ofOption_some, ofExcept_ok_bind, seeds, ofOption_some,
    ofExcept_ok_bind, solve]
  dsimp only [Indexed.graph_of]
  rw [visit?_eq rfl _ _ within ⟨List.length_map _, List.length_map _⟩, ofOption_some,
    ofExcept_ok_bind]
  generalize analysis.visit _ _ _ _ _ _ _ = found
  cases found with
  | none => rfl
  | some found =>
    dsimp only
    cases analysis.direction <;> rfl

/-- A solution has states at both ends of every block, so the checks on them pass. -/
theorem stateAt?_eq [DecidableEq σ] {flow : FlowGraph} {visitsPerBlock : Nat}
    {solution : Solution σ} (solved : analysis.solve flow visitsPerBlock = .ok solution)
    (block : String) :
    stateAt? solution solution.before block = some (solution.before? block) ∧
      stateAt? solution solution.after block = some (solution.after? block) := by
  obtain ⟨names_eq, settled⟩ := settled_solution solved
  have there : ∀ place < flow.blocks.length,
      (∃ state, solution.before[place]? = some state) ∧
        ∃ state, solution.after[place]? = some state := by
    intro place below
    obtain ⟨flowsIn, flowsOut⟩ := settled place _ (List.getElem?_eq_getElem below)
    cases isDirection : analysis.direction with
    | forward =>
      rw [isDirection] at flowsIn flowsOut
      exact ⟨⟨_, flowsIn⟩, ⟨_, flowsOut⟩⟩
    | backward =>
      rw [isDirection] at flowsIn flowsOut
      exact ⟨⟨_, flowsOut⟩, ⟨_, flowsIn⟩⟩
  rw [stateAt?, stateAt?, Solution.before?, Solution.after?]
  cases found : solution.position? block with
  | none => exact ⟨rfl, rfl⟩
  | some place =>
    have below : place < flow.blocks.length := by
      have inside := (List.findIdx?_eq_some_iff_getElem.1 found).1
      rwa [names_eq, FlowGraph.names, List.length_map] at inside
    obtain ⟨⟨before, isBefore⟩, after, isAfter⟩ := there place below
    rw [Option.bind_some, Option.bind_some]
    dsimp only
    rw [isBefore, isAfter]
    exact ⟨rfl, rfl⟩

end Checked

end Midend
