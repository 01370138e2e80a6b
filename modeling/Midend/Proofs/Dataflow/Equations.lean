import Midend.Proofs.Dataflow.Solver
import Midend.Proofs.FlowGraph.Unreachable

/-! # The equations that a solution satisfies

Whatever an analysis is, a solution satisfies its equations (`Analysis.solve_solves`): what flows
into a block is the boundary if nothing is sent to it, and otherwise what the analysis merges of what
its neighbours send, one after another; what flows out of it is what the block makes of that. -/

namespace Midend

/-- Two lists that are each related to a third one are related to each other. -/
theorem forall₂_of_common {α β γ : Type} {first : α → β → Prop} {second : α → γ → Prop}
    {both : β → γ → Prop} {common : List α} {left : List β} {right : List γ}
    (isLeft : List.Forall₂ first common left) (isRight : List.Forall₂ second common right)
    (joins : ∀ {one two three}, first one two → second one three → both two three) :
    List.Forall₂ both left right := by
  induction isLeft generalizing right with
  | nil =>
    cases isRight
    exact .nil
  | cons headLeft _ tailIH =>
    cases isRight with
    | cons headRight tailRight => exact .cons (joins headLeft headRight) (tailIH tailRight)

/-- A partial map that is defined on a list gives one element for each. -/
theorem forall₂_filterMap {α β : Type} {step : α → Option β} {list : List α}
    (defined : ∀ element ∈ list, ∃ image, step element = some image) :
    List.Forall₂ (fun element image => step element = some image) list (list.filterMap step) := by
  induction list with
  | nil => exact .nil
  | cons first rest restIH =>
    rw [List.forall_mem_cons] at defined
    obtain ⟨image, isImage⟩ := defined.1
    rw [List.filterMap_cons_some isImage]
    exact .cons isImage (restIH defined.2)

/-! ## Neighbours in order -/

namespace FlowGraph

variable {graph : FlowGraph}

/-- The block of a place has a name. -/
def NamedAt (graph : FlowGraph) (place : Nat) (name : String) : Prop :=
  ∃ block, graph.blocks[place]? = some block ∧ block.name = name

/-- All edges between places are edges of the directed graph. -/
theorem edges_digraph (nodup : graph.names.Nodup) : graph.digraph.edges = graph.indexEdges := by
  refine List.filter_eq_self.2 fun edge member => ?_
  obtain ⟨⟨block, source⟩, isBlock, member⟩ := List.mem_flatMap.1 member
  obtain ⟨name, _, isEdge⟩ := List.mem_filterMap.1 member
  obtain ⟨target, isTarget, rfl⟩ := Option.map_eq_some_iff.1 isEdge
  obtain ⟨other, isOther, _⟩ := (indexOf?_eq_some_iff nodup).1 isTarget
  have sourceBelow := (List.getElem?_eq_some_iff.1 (List.mem_zipIdx_iff_getElem?.1 isBlock)).1
  have targetBelow := (List.getElem?_eq_some_iff.1 isOther).1
  exact decide_eq_true ⟨sourceBelow, targetBelow⟩

/-- The edges of blocks that stand from a place on. -/
def edgesFrom (graph : FlowGraph) (start : Nat) (blocks : List Block) : List (Nat × Nat) :=
  (blocks.zipIdx start).flatMap fun (block, source) =>
    block.successors.filterMap fun name => (graph.indexOf? name).map fun target => (source, target)

/-- The edges of a block, then those of the blocks after it. -/
theorem edgesFrom_cons (graph : FlowGraph) (start : Nat) (block : Block) (rest : List Block) :
    graph.edgesFrom start (block :: rest) =
      (block.successors.filterMap fun name => (graph.indexOf? name).map fun target =>
        (start, target)) ++ graph.edgesFrom (start + 1) rest := rfl

/-- Blocks from a place on have no edges that leave an earlier one. -/
theorem filter_edgesFrom_of_lt {place start : Nat} (before : place < start) (blocks : List Block) :
    (graph.edgesFrom start blocks).filter (·.1 == place) = [] := by
  refine List.filter_eq_nil_iff.2 fun edge member => ?_
  obtain ⟨⟨block, source⟩, isBlock, member⟩ := List.mem_flatMap.1 member
  obtain ⟨name, _, isEdge⟩ := List.mem_filterMap.1 member
  obtain ⟨target, _, rfl⟩ := Option.map_eq_some_iff.1 isEdge
  have isLate := List.le_snd_of_mem_zipIdx isBlock
  simp only [beq_iff_eq]
  omega

/-- The edges that leave the block of a place. -/
theorem successors_edgesFrom {place start : Nat} {block : Block} {blocks : List Block}
    (found : blocks[place]? = some block) :
    ((graph.edgesFrom start blocks).filter (·.1 == start + place)).map Prod.snd =
      block.successors.filterMap graph.indexOf? := by
  induction blocks generalizing place start with
  | nil => simp at found
  | cons first rest restIH =>
    rw [edgesFrom_cons, List.filter_append, List.map_append]
    cases place with
    | zero =>
      obtain rfl := Option.some.inj found
      rw [Nat.add_zero, filter_edgesFrom_of_lt (Nat.lt_succ_self start), List.map_nil,
        List.append_nil, List.filter_eq_self.2, List.map_filterMap]
      · congr 1
        funext name
        simp
      · intro edge member
        obtain ⟨name, _, isEdge⟩ := List.mem_filterMap.1 member
        obtain ⟨target, _, rfl⟩ := Option.map_eq_some_iff.1 isEdge
        exact beq_self_eq_true start
    | succ place =>
      rw [List.filter_eq_nil_iff.2, List.map_nil, List.nil_append,
        show start + (place + 1) = start + 1 + place by omega]
      · exact restIH found
      · intro edge member
        obtain ⟨name, _, isEdge⟩ := List.mem_filterMap.1 member
        obtain ⟨target, _, rfl⟩ := Option.map_eq_some_iff.1 isEdge
        simp only [beq_iff_eq]
        omega

/-- A block with given labels has one edge to a place if the name of the block there is among them. -/
theorem edges_to_place (nodup : graph.names.Nodup) {target : Nat} {other : Block}
    (isTarget : graph.blocks[target]? = some other) (start : Nat) {labels : List String}
    (labelsNodup : labels.Nodup) :
    ((labels.filterMap fun name => (graph.indexOf? name).map fun target => (start, target)).filter
      (·.2 == target)).map Prod.fst = if other.name ∈ labels then [start] else [] := by
  have here : ∀ name, graph.indexOf? name = some target ↔ other.name = name := by
    intro name
    rw [indexOf?_eq_some_iff nodup]
    constructor
    · rintro ⟨found, isFound, rfl⟩
      rw [Option.some.inj (isTarget.symm.trans isFound)]
    · rintro rfl
      exact ⟨other, isTarget, rfl⟩
  -- By induction on the labels: one of them at most names the block.
  induction labels with
  | nil => rfl
  | cons name rest restIH =>
    rw [List.nodup_cons] at labelsNodup
    have later := restIH labelsNodup.2
    by_cases isName : other.name = name
    · rw [if_neg (isName ▸ labelsNodup.1)] at later
      rw [List.filterMap_cons_some (b := (start, target)) (by rw [(here name).2 isName]; rfl),
        List.filter_cons, if_pos (beq_self_eq_true target), List.map_cons, later,
        if_pos (List.mem_cons.2 (.inl isName))]
    · have sameMember : (other.name ∈ name :: rest) = (other.name ∈ rest) := by
        rw [List.mem_cons, eq_iff_iff, or_iff_right isName]
      simp only [sameMember]
      rw [← later]
      cases isIndex : graph.indexOf? name with
      | none => rw [List.filterMap_cons_none (by rw [isIndex]; rfl)]
      | some place =>
        have elsewhere : place ≠ target := by
          rintro rfl
          exact isName ((here name).1 isIndex)
        rw [List.filterMap_cons_some (b := (start, place)) (by rw [isIndex]; rfl),
          List.filter_cons_of_neg (by simpa using elsewhere)]

/-- The edges that enter the block of a place come from the blocks that lead to it. -/
theorem predecessors_edgesFrom (nodup : graph.names.Nodup) {target : Nat} {other : Block}
    (isTarget : graph.blocks[target]? = some other) {start : Nat} {blocks : List Block}
    (placed : ∀ place block, blocks[place]? = some block →
      graph.blocks[start + place]? = some block) :
    List.Forall₂ graph.NamedAt
      (((graph.edgesFrom start blocks).filter (·.2 == target)).map Prod.fst)
      ((blocks.filter fun block => block.successors.contains other.name).map Block.name) := by
  induction blocks generalizing start with
  | nil => exact .nil
  | cons block rest restIH =>
    have later := @restIH (start + 1) fun place found isFound => by
      rw [Nat.add_assoc, Nat.add_comm 1]
      exact placed (place + 1) found isFound
    rw [edgesFrom_cons, List.filter_append, List.map_append,
      edges_to_place nodup isTarget start block.nodup_successors]
    by_cases leads : other.name ∈ block.successors
    · rw [if_pos leads, List.filter_cons, if_pos (List.contains_iff_mem.2 leads), List.map_cons]
      exact .cons ⟨block, placed 0 block rfl, rfl⟩ later
    · rw [if_neg leads, List.filter_cons, if_neg (mt List.contains_iff_mem.1 leads),
        List.nil_append]
      exact later

/-- The predecessors of a place are the places of the predecessors of its block, in their order. -/
theorem forall₂_predecessors (nodup : graph.names.Nodup) {place : Nat} {block : Block}
    (found : graph.blocks[place]? = some block) : List.Forall₂ graph.NamedAt
      (graph.digraph.predecessors place) (graph.predecessorsOf block.name) := by
  rw [Digraph.predecessors, edges_digraph nodup]
  refine @predecessors_edgesFrom graph nodup place block found 0 graph.blocks ?_
  intro place block isBlock
  rwa [Nat.zero_add]

/-- The successors of a place are the places of the successors of its block, in their order; names
without a block are left out. -/
theorem forall₂_successors (nodup : graph.names.Nodup) {place : Nat} {block : Block}
    (found : graph.blocks[place]? = some block) : List.Forall₂ graph.NamedAt
      (graph.digraph.successors place) (block.successors.filter graph.hasBlock) := by
  have places := @successors_edgesFrom graph place 0 block graph.blocks found
  rw [Nat.zero_add] at places
  rw [Digraph.successors, edges_digraph nodup, indexEdges]
  rw [edgesFrom] at places
  rw [places]
  induction block.successors with
  | nil => exact .nil
  | cons name rest restIH =>
    cases isIndex : graph.indexOf? name with
    | none =>
      have unknown : ¬graph.hasBlock name = true := by
        rw [hasBlock_iff]
        intro isName
        obtain ⟨other, member, rfl⟩ := List.mem_map.1 isName
        obtain ⟨target, isTarget⟩ := List.getElem?_of_mem member
        rw [(indexOf?_eq_some_iff nodup).2 ⟨other, isTarget, rfl⟩] at isIndex
        cases isIndex
      rw [List.filterMap_cons_none isIndex, List.filter_cons_of_neg unknown]
      exact restIH
    | some target =>
      obtain ⟨other, isTarget, rfl⟩ := (indexOf?_eq_some_iff nodup).1 isIndex
      have known : graph.hasBlock other.name = true :=
        hasBlock_iff.2 (List.mem_map_of_mem (List.mem_of_getElem? isTarget))
      rw [List.filterMap_cons_some isIndex, List.filter_cons_of_pos known]
      exact .cons ⟨other, isTarget, rfl⟩ restIH

end FlowGraph

/-! ## Solutions -/

namespace Solution

variable {σ : Type}

/-- The states that flow into the blocks, by place. -/
def arriving (solution : Solution σ) : Direction → List σ
  | .forward => solution.before
  | .backward => solution.after

/-- The states that flow out of the blocks, by place. -/
def leaving (solution : Solution σ) : Direction → List σ
  | .forward => solution.after
  | .backward => solution.before

/-- A block has the states of its place. -/
theorem states_of_place {solution : Solution σ} {flow : FlowGraph} (nodup : flow.names.Nodup)
    (names_eq : solution.names = flow.names) {place : Nat} {block : Block}
    (found : flow.blocks[place]? = some block) :
    solution.before? block.name = solution.before[place]? ∧
      solution.after? block.name = solution.after[place]? := by
  have position : solution.position? block.name = some place := by
    rw [position?, names_eq, findIdx?_eq_some_iff nodup, FlowGraph.names, List.getElem?_map, found]
    rfl
  rw [before?, after?, position]
  exact ⟨rfl, rfl⟩

end Solution

namespace Analysis

variable {σ : Type} {analysis : Analysis σ} {flow : FlowGraph} {solution : Solution σ}

/-- The states of a solution are settled. -/
theorem settled_solution [DecidableEq σ] {visits : Nat}
    (solved : analysis.solve flow visits = .ok solution) : solution.names = flow.names ∧
      ∀ node, Settled analysis flow.blocks flow.digraph (solution.arriving analysis.direction)
        (solution.leaving analysis.direction) node := by
  obtain ⟨incoming, outgoing, settled, count, isSolution⟩ := settled_of_solve solved
  cases isDirection : analysis.direction <;> rw [isDirection] at isSolution <;> subst isSolution
  · exact ⟨rfl, settled⟩
  · exact ⟨rfl, settled⟩

/-- What holds of the states at the start, and of what a block sends when it holds of what all blocks
send, holds of what the blocks of a solution send. -/
theorem invariant_of_solve [DecidableEq σ] {visits : Nat}
    (solved : analysis.solve flow visits = .ok solution) {holds : Nat → σ → Prop}
    (initially : ∀ node, holds node analysis.initial)
    (sends : ∀ node block outgoing, flow.blocks[node]? = some block →
      (∀ other state, outgoing[other]? = some state → holds other state) →
        holds node (analysis.transfer block
          (analysis.gather flow.blocks flow.digraph outgoing node block))) :
    ∀ node state, (solution.leaving analysis.direction)[node]? = some state →
      holds node state := by
  unfold solve at solved
  dsimp only at solved
  split at solved
  · cases solved
  · rename_i incoming outgoing count visited
    have held := invariant_of_visit sends (fun node state found => by
      rw [List.getElem?_map, Option.map_eq_some_iff] at found
      obtain ⟨_, _, rfl⟩ := found
      exact initially node) visited
    cases isDirection : analysis.direction <;> rw [isDirection] at solved
    · obtain rfl := Except.ok.inj solved
      exact held
    · obtain rfl := Except.ok.inj solved
      exact held

/-- The equations of an analysis at a block: what flows into it is the boundary if nothing is sent
to it, and otherwise what is sent, merged; what flows out of it is what it makes of that. -/
structure Balanced (analysis : Analysis σ) (block : Block) (sent : List σ) (arrives leaves : σ) :
    Prop where
  /-- What flows in. -/
  arrives_eq : arrives = if sent.isEmpty then analysis.boundary else analysis.merge sent
  /-- What flows out. -/
  leaves_eq : leaves = analysis.transfer block arrives

/-- What is sent along edges: the states of some neighbours, each passed along its edge. Neighbours
are found by their places, or by their names. -/
def Sends {ι : Type} (blockAt : ι → Option Block) (stateAt : ι → Option σ) (pass : Block → σ → σ)
    (neighbours : List ι) (sent : List σ) : Prop :=
  List.Forall₂ (fun neighbour state => ∃ other leaves, blockAt neighbour = some other ∧
    stateAt neighbour = some leaves ∧ state = pass other leaves) neighbours sent

/-- States before and after the blocks that satisfy the equations of an analysis at a block. -/
def Solves {ι : Type} (analysis : Analysis σ) (blockAt : ι → Option Block)
    (before after : ι → Option σ) (predecessors successors : List ι) (here : ι) (block : Block) :
    Prop :=
  ∃ start finish sent, before here = some start ∧ after here = some finish ∧
    match analysis.direction with
    | .forward => analysis.Balanced block sent start finish ∧
      Sends blockAt after (fun other => analysis.edge other block) predecessors sent
    | .backward => analysis.Balanced block sent finish start ∧
      Sends blockAt before (fun other => analysis.edge block other) successors sent

/-- Where neighbours are found in one way, they are found in another. -/
theorem Sends.imp {ι κ : Type} {blockAt : ι → Option Block} {blockAt' : κ → Option Block}
    {stateAt : ι → Option σ} {stateAt' : κ → Option σ} {pass : Block → σ → σ} {neighbours : List ι}
    {neighbours' : List κ} {sent : List σ} {same : ι → κ → Prop}
    (sends : Sends blockAt stateAt pass neighbours sent)
    (areSame : List.Forall₂ same neighbours neighbours')
    (carries : ∀ {one two block}, same one two → blockAt one = some block →
      blockAt' two = some block ∧ stateAt' two = stateAt one) :
    Sends blockAt' stateAt' pass neighbours' sent := by
  refine forall₂_of_common areSame sends ?_
  rintro one two state isSame ⟨other, leaves, isOther, isLeaving, isSent⟩
  obtain ⟨found, sameState⟩ := carries isSame isOther
  exact ⟨other, leaves, found, sameState.trans isLeaving, isSent⟩

/-- Settled blocks are balanced by what their neighbours send, one after another. -/
theorem Settled.balanced {graph : Digraph} {incoming outgoing : List σ} {blocks : List Block}
    (settled : ∀ node, Settled analysis blocks graph incoming outgoing node)
    (order : graph.order = blocks.length) {place : Nat} {block : Block}
    (found : blocks[place]? = some block) : ∃ arrives leaves sent,
      incoming[place]? = some arrives ∧ outgoing[place]? = some leaves ∧
      analysis.Balanced block sent arrives leaves ∧
      Sends (blocks[·]?) (outgoing[·]?) (fun other => analysis.cross other block)
        (analysis.direction.sources graph place) sent := by
  obtain ⟨isArriving, isLeaving⟩ := settled place block found
  have below : ∀ source ∈ analysis.direction.sources graph place, source < blocks.length :=
    fun source member => order ▸ Direction.sources_lt member
  have sends := @forall₂_filterMap _ _ (analysis.sent? blocks outgoing block)
    (analysis.direction.sources graph place) fun source member => by
      have isOther := List.getElem?_eq_getElem (below source member)
      exact ⟨_, sent?_eq_some_iff.2 ⟨_, _, isOther, (settled source _ isOther).2, rfl⟩⟩
  refine ⟨_, _, _, isArriving, isLeaving, ⟨?_, rfl⟩, sends.imp fun source state isSent => ?_⟩
  · rw [gather_eq]
    congr 1
    rw [eq_iff_iff, List.isEmpty_iff_length_eq_zero, List.isEmpty_iff_length_eq_zero,
      sends.length_eq]
  · obtain ⟨other, leaves, isOther, isLeaving, crosses⟩ := sent?_eq_some_iff.1 isSent
    exact ⟨other, leaves, isOther, isLeaving, crosses.symm⟩

/-- States by place that are settled satisfy the equations. -/
theorem Settled.solves
    (settled : ∀ node, Settled analysis flow.blocks flow.digraph
      (solution.arriving analysis.direction) (solution.leaving analysis.direction) node)
    {place : Nat} {block : Block} (found : flow.blocks[place]? = some block) :
    analysis.Solves (flow.blocks[·]?) (solution.before[·]?) (solution.after[·]?)
      (flow.digraph.predecessors place) (flow.digraph.successors place) place block := by
  obtain ⟨arrives, leaves, sent, isArriving, isLeaving, equations, sends⟩ :=
    Settled.balanced settled rfl found
  unfold cross Solution.arriving Solution.leaving Direction.sources at *
  unfold Solves
  cases isDirection : analysis.direction with
  | forward =>
    rw [isDirection] at isArriving isLeaving sends
    exact ⟨arrives, leaves, sent, isArriving, isLeaving, equations, sends⟩
  | backward =>
    rw [isDirection] at isArriving isLeaving sends
    exact ⟨leaves, arrives, sent, isLeaving, isArriving, equations, sends⟩

/-- States that satisfy the equations where blocks are found in one way satisfy them where they are
found in another. -/
theorem Solves.imp {ι κ : Type} {blockAt : ι → Option Block} {blockAt' : κ → Option Block}
    {before after : ι → Option σ} {before' after' : κ → Option σ} {predecessors successors : List ι}
    {predecessors' successors' : List κ} {here : ι} {here' : κ} {block : Block} {same : ι → κ → Prop}
    (solves : analysis.Solves blockAt before after predecessors successors here block)
    (isSame : same here here') (found : blockAt here = some block)
    (samePredecessors : List.Forall₂ same predecessors predecessors')
    (sameSuccessors : List.Forall₂ same successors successors')
    (carries : ∀ {one two block}, same one two → blockAt one = some block →
      blockAt' two = some block ∧ before' two = before one ∧ after' two = after one) :
    analysis.Solves blockAt' before' after' predecessors' successors' here' block := by
  obtain ⟨start, finish, sent, isStart, isFinish, equations⟩ := solves
  obtain ⟨_, sameBefore, sameAfter⟩ := carries isSame found
  refine ⟨start, finish, sent, sameBefore.trans isStart, sameAfter.trans isFinish, ?_⟩
  cases isDirection : analysis.direction with
  | forward =>
    rw [isDirection] at equations
    exact ⟨equations.1, equations.2.imp samePredecessors fun areSame isBlock =>
      ⟨(carries areSame isBlock).1, (carries areSame isBlock).2.2⟩⟩
  | backward =>
    rw [isDirection] at equations
    exact ⟨equations.1, equations.2.imp sameSuccessors fun areSame isBlock =>
      ⟨(carries areSame isBlock).1, (carries areSame isBlock).2.1⟩⟩

/-- The states of a solution satisfy the equations of the analysis, whatever it is. Along the edges
each block gets the states after its predecessors, and against them those before its successors, in
the order of the graph. Blocks and neighbours may be told by their places or, if they have names of
their own, by their names. -/
theorem solve_solves [DecidableEq σ] {visits : Nat}
    (solved : analysis.solve flow visits = .ok solution) :
    (∀ place block, flow.blocks[place]? = some block →
      analysis.Solves (flow.blocks[·]?) (solution.before[·]?) (solution.after[·]?)
        (flow.digraph.predecessors place) (flow.digraph.successors place) place block) ∧
    (flow.names.Nodup → ∀ block ∈ flow.blocks,
      analysis.Solves flow.find? solution.before? solution.after?
        (flow.predecessorsOf block.name) (block.successors.filter flow.hasBlock) block.name
          block) := by
  obtain ⟨names_eq, settled⟩ := settled_solution solved
  have places : ∀ place block, flow.blocks[place]? = some block →
      analysis.Solves (flow.blocks[·]?) (solution.before[·]?) (solution.after[·]?)
        (flow.digraph.predecessors place) (flow.digraph.successors place) place block :=
    fun place block found => Settled.solves settled found
  refine ⟨places, fun nodup block member => ?_⟩
  obtain ⟨place, found⟩ := List.getElem?_of_mem member
  -- A neighbour is found by its name where it is found by its place.
  refine (places place block found).imp ⟨block, found, rfl⟩ found
    (FlowGraph.forall₂_predecessors nodup found) (FlowGraph.forall₂_successors nodup found) ?_
  rintro place _ other ⟨block, isBlock, rfl⟩ isOther
  obtain rfl := Option.some.inj (isBlock.symm.trans isOther)
  exact ⟨(FlowGraph.find?_eq_some_iff nodup).2 ⟨List.mem_of_getElem? isBlock, rfl⟩,
    Solution.states_of_place nodup names_eq isBlock⟩

/-- The length of the longest path to a block, up to three. -/
def depth : Analysis Nat where
  name := "depth"
  direction := .forward
  boundary := 0
  initial := 0
  merge := fun states => states.foldl max 0
  transfer := fun _ state => min (state + 1) 3

/-- A flow graph with a block that leads to itself and one that nothing leads to. -/
def spinning : FlowGraph where
  name := "spin"
  params := []
  returnType := none
  pos := none
  blocks := [⟨"start", [.jmp "loop"]⟩, ⟨"loop", [.jmp "loop"]⟩, ⟨"gone", [.jmp "loop"]⟩]
  nextKey := 1
  nextBlock := 0

/-- Depths solve their equations around the loop, where they stay at three. -/
theorem solve_solves_spinning : ∃ solution, depth.solve spinning 100 = .ok solution ∧
    solution.before? "loop" = some 3 ∧ spinning.names.Nodup ∧ ∀ block ∈ spinning.blocks,
      depth.Solves spinning.find? solution.before? solution.after?
        (spinning.predecessorsOf block.name) (block.successors.filter spinning.hasBlock) block.name
          block := by
  have nodup : spinning.names.Nodup := by decide
  obtain ⟨solution, solved, isDeep⟩ : ∃ solution, depth.solve spinning 100 = .ok solution ∧
      solution.before? "loop" = some 3 := ⟨_, rfl, rfl⟩
  exact ⟨solution, solved, isDeep, nodup, (solve_solves solved).2 nodup⟩

end Analysis

end Midend
