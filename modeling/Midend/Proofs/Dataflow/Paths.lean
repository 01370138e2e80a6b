import Midend.Proofs.Dataflow.Equations
import Midend.Proofs.Path

/-! # What a solution knows, told by paths

Many an analysis can be told one fact at a time: a state has the fact or not, merged states have it
if one of them does, and a block gives it anew, keeps it, or loses it. The states of a solution have
such a fact exactly where it arrives along a path on which it is given at the start and kept from
there on (`Analysis.Tracks.has_iff`). That nothing else is found is an invariant of all visits;
that nothing is missed follows from the equations. -/

namespace Midend

/-! ## Arriving along paths -/

section Arriving

variable {α : Type} {feeds : α → α → Prop} {start : α → Prop} {sends : α → α → Prop}
  {keeps : α → Prop} {origin first target : α} {earlier : List α}

/-- A fact arrives at a node: it is there from the start, it is sent along an edge, or it arrives at
a node that keeps it. -/
inductive Arrives (feeds : α → α → Prop) (start : α → Prop) (sends : α → α → Prop)
    (keeps : α → Prop) : α → Prop where
  /-- The fact is there from the start. -/
  | start {node : α} : start node → Arrives feeds start sends keeps node
  /-- The fact is sent. -/
  | sent {source target : α} :
      feeds source target → sends source target → Arrives feeds start sends keeps target
  /-- The fact arrives at a node that keeps it. -/
  | kept {source target : α} : feeds source target → keeps source →
      Arrives feeds start sends keeps source → Arrives feeds start sends keeps target

/-- A fact arrives where a path leads on which it is kept. -/
theorem Arrives.along (arrives : Arrives feeds start sends keeps first)
    (path : Path feeds first (target :: earlier) target) (kept : ∀ node ∈ earlier, keeps node) :
    Arrives feeds start sends keeps target := by
  generalize isNodes : target :: earlier = nodes at path
  induction path generalizing earlier with
  | start => exact arrives
  | @step nodes here next shorter lastEdge shorterIH =>
    obtain ⟨_, rfl⟩ := List.cons.inj isNodes
    obtain ⟨before, rfl⟩ := shorter.exists_eq_cons
    rw [List.forall_mem_cons] at kept
    exact .kept lastEdge kept.1 (shorterIH kept.2 rfl)

/-- A fact arrives along the paths from where it starts, and along those from where it is sent to. -/
theorem arrives_iff_path : Arrives feeds start sends keeps target ↔
    (∃ origin earlier, start origin ∧ Path feeds origin (target :: earlier) target ∧
      ∀ node ∈ earlier, keeps node) ∨
    ∃ origin first earlier, feeds origin first ∧ sends origin first ∧
      Path feeds first (target :: earlier) target ∧ ∀ node ∈ earlier, keeps node := by
  constructor
  · intro arrives
    induction arrives with
    | @start node starts => exact .inl ⟨node, [], starts, .start, nofun⟩
    | @sent source target edge isSent =>
      exact .inr ⟨source, target, [], edge, isSent, .start, nofun⟩
    | @kept source target edge isKept _ earlierIH =>
      -- The path goes on by one edge.
      rcases earlierIH with ⟨origin, earlier, starts, path, kept⟩ |
        ⟨origin, first, earlier, firstEdge, isSent, path, kept⟩
      · exact .inl ⟨origin, source :: earlier, starts, path.step edge,
          List.forall_mem_cons.2 ⟨isKept, kept⟩⟩
      · exact .inr ⟨origin, first, source :: earlier, firstEdge, isSent, path.step edge,
          List.forall_mem_cons.2 ⟨isKept, kept⟩⟩
  · rintro (⟨origin, earlier, starts, path, kept⟩ |
      ⟨origin, first, earlier, firstEdge, isSent, path, kept⟩)
    · exact Arrives.along (.start starts) path kept
    · exact Arrives.along (.sent firstEdge isSent) path kept

end Arriving

/-! ## Edges between blocks -/

/-- A block of a flow graph leads to another one. -/
structure FlowGraph.Links (graph : FlowGraph) (source target : Block) : Prop where
  /-- The first block is one of the flow graph. -/
  source_mem : source ∈ graph.blocks
  /-- So is the second one. -/
  target_mem : target ∈ graph.blocks
  /-- The first one leads to the second one. -/
  leads : target.name ∈ source.successors

/-- The state of a block flows into another one. -/
def Direction.Feeds (direction : Direction) (graph : FlowGraph) (source target : Block) : Prop :=
  match direction with
  | .forward => graph.Links source target
  | .backward => graph.Links target source

/-- What feeds a block is a block of the flow graph. -/
theorem Direction.mem_of_feeds {direction : Direction} {graph : FlowGraph} {source target : Block}
    (feeds : direction.Feeds graph source target) : source ∈ graph.blocks := by
  cases direction with
  | forward => exact feeds.source_mem
  | backward => exact feeds.target_mem

/-- Places are sources of others as their blocks feed theirs. -/
theorem Direction.mem_sources_iff {direction : Direction} {graph : FlowGraph}
    (nodup : graph.names.Nodup) {source place : Nat} {block : Block}
    (found : graph.blocks[place]? = some block) :
    source ∈ direction.sources graph.digraph place ↔
      ∃ other, graph.blocks[source]? = some other ∧ direction.Feeds graph other block := by
  cases direction with
  | forward =>
    refine (Digraph.mem_predecessors.trans (FlowGraph.edge_digraph_iff nodup)).trans ⟨?_, ?_⟩
    · rintro ⟨other, target, isOther, isTarget, leads⟩
      obtain rfl := Option.some.inj (isTarget.symm.trans found)
      exact ⟨other, isOther, List.mem_of_getElem? isOther, List.mem_of_getElem? found, leads⟩
    · rintro ⟨other, isOther, links⟩
      exact ⟨other, block, isOther, found, links.leads⟩
  | backward =>
    refine (Digraph.mem_successors.trans (FlowGraph.edge_digraph_iff nodup)).trans ⟨?_, ?_⟩
    · rintro ⟨sender, other, isSender, isOther, leads⟩
      obtain rfl := Option.some.inj (isSender.symm.trans found)
      exact ⟨other, isOther, List.mem_of_getElem? found, List.mem_of_getElem? isOther, leads⟩
    · rintro ⟨other, isOther, links⟩
      exact ⟨block, other, found, isOther, links.leads⟩

/-! ## Facts -/

namespace Analysis

variable {σ : Type} {analysis : Analysis σ}

/-- An analysis finds out about a fact that states have or not: a block gives it or keeps it, and an
edge may add it. -/
structure Tracks (analysis : Analysis σ) (has : σ → Prop) (gives keeps : Block → Prop)
    (adds : Block → Block → Prop) : Prop where
  /-- No block has the fact to begin with. -/
  initial : ¬has analysis.initial
  /-- Merged states have it if one of them does. -/
  merge : ∀ states, has (analysis.merge states) ↔ ∃ state ∈ states, has state
  /-- A block gives it, or keeps it. -/
  transfer : ∀ block state,
    has (analysis.transfer block state) ↔ gives block ∨ (keeps block ∧ has state)
  /-- An edge adds it, or passes it on. -/
  cross : ∀ source target state,
    has (analysis.cross source target state) ↔ adds source target ∨ has state

/-- A fact arrives at a block of a flow graph. -/
def Finds (analysis : Analysis σ) (flow : FlowGraph) (has : σ → Prop) (gives keeps : Block → Prop)
    (adds : Block → Block → Prop) : Block → Prop :=
  Arrives (analysis.direction.Feeds flow)
    (fun block => block ∈ flow.blocks ∧ (∀ other, ¬analysis.direction.Feeds flow other block) ∧
      has analysis.boundary)
    (fun source target => adds source target ∨ gives source) keeps

namespace Tracks

variable {has : σ → Prop} {gives keeps : Block → Prop} {adds : Block → Block → Prop}
  {flow : FlowGraph}

/-- What flows into a block has a fact if the boundary has it and nothing feeds the block, or if what
crosses one of the edges has it. -/
theorem has_gather (tracks : analysis.Tracks has gives keeps adds) (nodup : flow.names.Nodup)
    {place : Nat} {block : Block} (found : flow.blocks[place]? = some block) (outgoing : List σ) :
    has (analysis.gather flow.blocks flow.digraph outgoing place block) ↔
      ((∀ other, ¬analysis.direction.Feeds flow other block) ∧ has analysis.boundary) ∨
      ∃ (source : Nat) (other : Block) (state : σ), flow.blocks[source]? = some other ∧
        outgoing[source]? = some state ∧ analysis.direction.Feeds flow other block ∧
          has (analysis.cross other block state) := by
  have mem_sources := fun source =>
    @Direction.mem_sources_iff analysis.direction flow nodup source place block found
  rw [gather_eq]
  -- The boundary counts only where there is no source at all.
  by_cases empty : (analysis.direction.sources flow.digraph place).isEmpty = true
  · rw [if_pos empty]
    rw [List.isEmpty_iff] at empty
    have unfed : ∀ other, ¬analysis.direction.Feeds flow other block := by
      intro other feeds
      obtain ⟨source, isSource⟩ := List.getElem?_of_mem (Direction.mem_of_feeds feeds)
      have inSources := (mem_sources source).2 ⟨other, isSource, feeds⟩
      rw [empty] at inSources
      cases inSources
    constructor
    · exact fun held => .inl ⟨unfed, held⟩
    · rintro (⟨_, held⟩ | ⟨_, other, _, _, _, feeds, _⟩)
      · exact held
      · exact absurd feeds (unfed other)
  · rw [if_neg empty, tracks.merge]
    constructor
    · rintro ⟨state, member, held⟩
      obtain ⟨source, inSources, isState⟩ := List.mem_filterMap.1 member
      obtain ⟨other, isOther, feeds⟩ := (mem_sources source).1 inSources
      obtain ⟨sender, leaves, isSender, isLeaving, rfl⟩ := sent?_eq_some_iff.1 isState
      obtain rfl := Option.some.inj (isOther.symm.trans isSender)
      exact .inr ⟨source, other, leaves, isOther, isLeaving, feeds, held⟩
    · rintro (⟨unfed, _⟩ | ⟨source, other, state, isOther, isState, feeds, held⟩)
      · obtain ⟨source, inSources⟩ := List.exists_mem_of_ne_nil _ (mt List.isEmpty_iff.2 empty)
        obtain ⟨other, _, feeds⟩ := (mem_sources source).1 inSources
        exact absurd feeds (unfed other)
      · exact ⟨_, List.mem_filterMap.2 ⟨source, (mem_sources source).2 ⟨other, isOther, feeds⟩,
          sent?_eq_some_iff.2 ⟨other, state, isOther, isState, rfl⟩⟩, held⟩

/-- If blocks send a fact only when they give it or keep what arrives, it arrives where it flows in. -/
theorem finds_of_gather (tracks : analysis.Tracks has gives keeps adds) (nodup : flow.names.Nodup)
    {place : Nat} {block : Block} (found : flow.blocks[place]? = some block) {outgoing : List σ}
    (known : ∀ (node : Nat) (state : σ), outgoing[node]? = some state → has state →
      ∃ other, flow.blocks[node]? = some other ∧
        (gives other ∨ keeps other ∧ analysis.Finds flow has gives keeps adds other))
    (held : has (analysis.gather flow.blocks flow.digraph outgoing place block)) :
    analysis.Finds flow has gives keeps adds block := by
  rcases (tracks.has_gather nodup found outgoing).1 held with ⟨unfed, held⟩ |
    ⟨source, other, state, isOther, isState, feeds, held⟩
  · exact .start ⟨List.mem_of_getElem? found, unfed, held⟩
  · rcases (tracks.cross _ _ _).1 held with added | held
    · exact .sent feeds (.inl added)
    · obtain ⟨sender, isSender, cases⟩ := known source state isState held
      obtain rfl := Option.some.inj (isOther.symm.trans isSender)
      rcases cases with given | ⟨isKept, arrives⟩
      · exact .sent feeds (.inr given)
      · exact .kept feeds isKept arrives

/-- Where a fact arrives it is in the state that flows in, by the equations on the way. -/
theorem gather_of_finds (tracks : analysis.Tracks has gives keeps adds) (nodup : flow.names.Nodup)
    {incoming outgoing : List σ}
    (settled : ∀ node, Settled analysis flow.blocks flow.digraph incoming outgoing node)
    {block : Block} (finds : analysis.Finds flow has gives keeps adds block) {place : Nat}
    (found : flow.blocks[place]? = some block) :
    has (analysis.gather flow.blocks flow.digraph outgoing place block) := by
  induction finds generalizing place with
  | start starts => exact (tracks.has_gather nodup found outgoing).2 (.inl starts.2)
  | @sent source target feeds isSent =>
    obtain ⟨before, isSource⟩ := List.getElem?_of_mem (Direction.mem_of_feeds feeds)
    refine (tracks.has_gather nodup found outgoing).2 (.inr ⟨before, source, _, isSource,
      (settled before source isSource).2, feeds, (tracks.cross _ _ _).2 ?_⟩)
    exact isSent.imp_right fun given => (tracks.transfer _ _).2 (.inl given)
  | @kept source target feeds isKept _ sourceIH =>
    obtain ⟨before, isSource⟩ := List.getElem?_of_mem (Direction.mem_of_feeds feeds)
    refine (tracks.has_gather nodup found outgoing).2 (.inr ⟨before, source, _, isSource,
      (settled before source isSource).2, feeds, (tracks.cross _ _ _).2 (.inr ?_)⟩)
    exact (tracks.transfer _ _).2 (.inr ⟨isKept, sourceIH isSource⟩)

/-- The states of a solution have a fact exactly where it arrives: what flows into a block has it if
it arrives there, and what flows out if the block gives it, or keeps what arrives. -/
theorem has_iff [DecidableEq σ] (tracks : analysis.Tracks has gives keeps adds) {visits : Nat}
    {solution : Solution σ} (solved : analysis.solve flow visits = .ok solution)
    (nodup : flow.names.Nodup) {place : Nat} {block : Block}
    (found : flow.blocks[place]? = some block) {arrives leaves : σ}
    (isArriving : (solution.arriving analysis.direction)[place]? = some arrives)
    (leavesIt : (solution.leaving analysis.direction)[place]? = some leaves) :
    (has arrives ↔ analysis.Finds flow has gives keeps adds block) ∧
      (has leaves ↔ gives block ∨ keeps block ∧ analysis.Finds flow has gives keeps adds block) := by
  have settled := (settled_solution solved).2
  generalize isLeaving : solution.leaving analysis.direction = leaving at settled leavesIt
  -- A fact that flows out of a block was given or kept there: an invariant of the visits.
  have sound : ∀ (node : Nat) (state : σ), leaving[node]? = some state → has state →
      ∃ other, flow.blocks[node]? = some other ∧
        (gives other ∨ keeps other ∧ analysis.Finds flow has gives keeps adds other) := by
    rw [← isLeaving]
    refine invariant_of_solve solved (fun node held => absurd held tracks.initial) ?_
    intro node other outgoing isOther known held
    refine ⟨other, isOther, ((tracks.transfer _ _).1 held).imp_right fun keepsIt => ⟨keepsIt.1, ?_⟩⟩
    exact tracks.finds_of_gather nodup isOther known keepsIt.2
  obtain ⟨gathered, sends⟩ := settled place block found
  obtain rfl := Option.some.inj (isArriving.symm.trans gathered)
  obtain rfl := Option.some.inj (leavesIt.symm.trans sends)
  refine ⟨⟨tracks.finds_of_gather nodup found sound,
    fun finds => tracks.gather_of_finds nodup settled finds found⟩, fun held => ?_, fun cases => ?_⟩
  · obtain ⟨other, isOther, cases⟩ := sound place _ sends held
    obtain rfl := Option.some.inj (found.symm.trans isOther)
    exact cases
  · exact (tracks.transfer _ _).2 (cases.imp_right fun keepsIt =>
      ⟨keepsIt.1, tracks.gather_of_finds nodup settled keepsIt.2 found⟩)

end Tracks

/-- A solution has states at the ends of every block, and they tell of every fact where it arrives. -/
theorem exists_states [DecidableEq σ] {flow : FlowGraph} {visits : Nat} {solution : Solution σ}
    (solved : analysis.solve flow visits = .ok solution) (nodup : flow.names.Nodup) {block : Block}
    (member : block ∈ flow.blocks) : ∃ arrives leaves,
      (match analysis.direction with
        | .forward =>
          solution.before? block.name = some arrives ∧ solution.after? block.name = some leaves
        | .backward =>
          solution.after? block.name = some arrives ∧ solution.before? block.name = some leaves) ∧
      ∀ {has gives keeps adds}, analysis.Tracks has gives keeps adds →
        (has arrives ↔ analysis.Finds flow has gives keeps adds block) ∧
        (has leaves ↔
          gives block ∨ keeps block ∧ analysis.Finds flow has gives keeps adds block) := by
  obtain ⟨names_eq, settled⟩ := settled_solution solved
  obtain ⟨place, found⟩ := List.getElem?_of_mem member
  obtain ⟨isArriving, isLeaving⟩ := settled place block found
  refine ⟨_, _, ?_, fun tracks => tracks.has_iff solved nodup found isArriving isLeaving⟩
  obtain ⟨isBefore, isAfter⟩ := Solution.states_of_place nodup names_eq found
  unfold Solution.arriving at isArriving
  unfold Solution.leaving at isLeaving
  cases isDirection : analysis.direction <;> rw [isDirection] at isArriving isLeaving
  · exact ⟨isBefore.trans isArriving, isAfter.trans isLeaving⟩
  · exact ⟨isAfter.trans isArriving, isBefore.trans isLeaving⟩

end Analysis

end Midend
