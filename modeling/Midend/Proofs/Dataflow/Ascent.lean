import Mathlib.Algebra.BigOperators.Ring.Finset
import Mathlib.Algebra.Order.BigOperators.Group.Finset
import Midend.Proofs.Dataflow.Paths

/-! # Ascending states

The states of an analysis that tracks facts only gain facts during the visits. If facts tell states
apart and a state has no more than a given number of ranks to climb, each block sends another state
that often at most, and each time puts as many blocks on the worklist as it has targets. Counted over
the edges of the flow graph, that bounds the visits that an analysis needs
(`Analysis.Climbs.exists_solution`). -/

namespace Midend

/-- The nodes together have as many targets as there are edges. -/
theorem Direction.sum_length_targets (direction : Direction) (graph : Digraph) :
    ∑ node ∈ Finset.range graph.order, (direction.targets graph node).length =
      graph.edges.length := by
  cases direction with
  | forward => exact graph.sum_length_successors
  | backward => exact graph.sum_length_predecessors

namespace Analysis

/-! ## Lengths of worklists -/

/-- Pushing nodes makes a worklist longer by no more than their number. -/
theorem Worklist.length_push_le (worklist : Worklist) (nodes : List Nat) :
    (worklist.push nodes).queue.length ≤ worklist.queue.length + nodes.length := by
  unfold Worklist.push
  induction nodes generalizing worklist with
  | nil => exact Nat.le_refl _
  | cons first rest restIH =>
    rw [List.foldl_cons, List.length_cons]
    refine (restIH _).trans ?_
    split
    · omega
    · rw [List.length_append, List.length_singleton]
      omega

/-- A worklist in which each node stands once. -/
structure Worklist.Single (order : Nat) (worklist : Worklist) : Prop where
  /-- The set is one. -/
  fits : worklist.queued.Fits
  /-- It holds all nodes. -/
  capacity : worklist.queued.capacity = order
  /-- No node is queued twice. -/
  nodup : worklist.queue.Nodup
  /-- What is queued are nodes, and is in the set. -/
  mem_queued : ∀ node ∈ worklist.queue, node < order ∧ node ∈ worklist.queued

/-- Each node still stands once after others are pushed. -/
theorem Worklist.Single.push {order : Nat} {worklist : Worklist} (single : worklist.Single order)
    {nodes : List Nat} (below : ∀ node ∈ nodes, node < order) :
    (worklist.push nodes).Single order := by
  unfold Worklist.push
  induction nodes generalizing worklist with
  | nil => exact single
  | cons first rest restIH =>
    rw [List.foldl_cons]
    refine restIH ?_ fun node member => below node (List.mem_cons_of_mem _ member)
    split
    · exact single
    · rename_i isNew
      obtain ⟨fits, capacity, nodup, mem_queued⟩ := single
      have isNode := below first (List.mem_cons_self ..)
      have members := fits.mem_insert (capacity ▸ isNode : first < worklist.queued.capacity)
      refine ⟨fits.insert first, (BitSet.capacity_insert _ _).trans capacity, ?_, fun node member => ?_⟩
      · refine List.nodup_append'.2 ⟨nodup, List.nodup_singleton _, ?_⟩
        rw [List.disjoint_singleton]
        exact fun queued => isNew (mem_queued first queued).2
      · rcases List.mem_append.1 member with old | isFirst
        · exact ⟨(mem_queued node old).1, (members node).2 (.inr (mem_queued node old).2)⟩
        · rw [List.mem_singleton.1 isFirst]
          exact ⟨isNode, (members first).2 (.inl rfl)⟩

/-- At the start no more nodes are queued than there are. -/
theorem Worklist.length_ofGraph_le (direction : Direction) {graph : Digraph}
    (nonempty : 0 < graph.order) : (ofGraph direction graph).queue.length ≤ graph.order := by
  have start : Single graph.order ⟨[], .empty graph.order⟩ :=
    ⟨BitSet.fits_empty _, rfl, List.nodup_nil, nofun⟩
  have single : Single graph.order (ofGraph direction graph) := by
    refine start.push fun node member => ?_
    rcases List.mem_append.1 member with inOrder | inRange
    · refine Digraph.lt_of_reaches nonempty ?_
      cases direction with
      | forward => exact (Digraph.mem_reversePostorder nonempty).1 inOrder
      | backward => exact (Digraph.mem_postorder nonempty).1 inOrder
    · exact List.mem_range.1 inRange
  have subset : (ofGraph direction graph).queue ⊆ List.range graph.order :=
    fun node member => List.mem_range.2 (single.mem_queued node member).1
  exact (single.nodup.subperm subset).length_le.trans (List.length_range ..).le

/-! ## Facts that states gain -/

variable {σ ι : Type} {analysis : Analysis σ} {blocks : List Block} {graph : Digraph}

namespace Tracks

variable {has : σ → Prop} {gives keeps : Block → Prop} {adds : Block → Block → Prop}

/-- What flows into a block has a fact of the boundary, of an edge or of what flows out of a block. -/
theorem cases_of_gather (tracks : analysis.Tracks has gives keeps adds) {outgoing : List σ}
    {node : Nat} {block : Block} (held : has (analysis.gather blocks graph outgoing node block)) :
    has analysis.boundary ∨ (∃ other ∈ blocks, adds other block) ∨
      ∃ (source : Nat) (state : σ), outgoing[source]? = some state ∧ has state := by
  rw [gather_eq] at held
  split at held
  · exact .inl held
  · obtain ⟨_, member, held⟩ := (tracks.merge _).1 held
    obtain ⟨source, _, isSent⟩ := List.mem_filterMap.1 member
    obtain ⟨other, leaves, isOther, isLeaving, rfl⟩ := sent?_eq_some_iff.1 isSent
    rcases (tracks.cross _ _ _).1 held with added | held
    · exact .inr (.inl ⟨other, List.mem_of_getElem? isOther, added⟩)
    · exact .inr (.inr ⟨source, leaves, isLeaving, held⟩)

/-- What flows into a block has a fact still when more blocks send it. -/
theorem gather_mono (tracks : analysis.Tracks has gives keeps adds) {outgoing others : List σ}
    (rises : ∀ (source : Nat) (state : σ), outgoing[source]? = some state →
      ∃ other, others[source]? = some other ∧ (has state → has other))
    {node : Nat} {block : Block} (held : has (analysis.gather blocks graph outgoing node block)) :
    has (analysis.gather blocks graph others node block) := by
  rw [gather_eq] at held ⊢
  split at held
  · rwa [if_pos ‹_›]
  · rw [if_neg ‹_›, tracks.merge]
    obtain ⟨_, member, held⟩ := (tracks.merge _).1 held
    obtain ⟨source, isSource, isSent⟩ := List.mem_filterMap.1 member
    obtain ⟨other, leaves, isOther, isLeaving, rfl⟩ := sent?_eq_some_iff.1 isSent
    obtain ⟨state, isState, gains⟩ := rises source leaves isLeaving
    refine ⟨_, List.mem_filterMap.2 ⟨source, isSource,
      sent?_eq_some_iff.2 ⟨other, state, isOther, isState, rfl⟩⟩, ?_⟩
    exact (tracks.cross _ _ _).2 (((tracks.cross _ _ _).1 held).imp_right gains)

/-- What flows out of a block has a fact still when more blocks send it. -/
theorem transfer_mono (tracks : analysis.Tracks has gives keeps adds) {block : Block} {low high : σ}
    (gains : has low → has high) (held : has (analysis.transfer block low)) :
    has (analysis.transfer block high) :=
  (tracks.transfer _ _).2 (((tracks.transfer _ _).1 held).imp_right (And.imp_right gains))

end Tracks

/-- An analysis whose states have ranks up to a height. Its facts tell states apart, a state with more
facts has a higher rank, and facts come from nowhere but the known ones. -/
structure Climbs (analysis : Analysis σ) (blocks : List Block) (has : ι → σ → Prop)
    (known : ι → Prop) (rank : σ → Nat) (height : Nat) : Prop where
  /-- Facts are tracked, and the boundary, blocks and edges give known ones only. -/
  tracks : ∀ fact, ∃ gives keeps adds, analysis.Tracks (has fact) gives keeps adds ∧
    (has fact analysis.boundary → known fact) ∧ (∀ block ∈ blocks, gives block → known fact) ∧
      ∀ source ∈ blocks, ∀ target ∈ blocks, adds source target → known fact
  /-- More facts make a higher rank. -/
  rank_lt : ∀ low high, (∀ fact, has fact low → has fact high) → low ≠ high → rank low < rank high
  /-- Known facts make no rank above the height. -/
  rank_le : ∀ state, (∀ fact, has fact state → known fact) → rank state ≤ height

/-- The states part way through the visits: they have known facts, and a visit adds some at most. -/
structure Rising (analysis : Analysis σ) (blocks : List Block) (graph : Digraph)
    (has : ι → σ → Prop) (known : ι → Prop) (outgoing : List σ) : Prop where
  /-- Every block has a state. -/
  length_eq : outgoing.length = blocks.length
  /-- A visit takes no fact away. -/
  below : ∀ node block state, blocks[node]? = some block → outgoing[node]? = some state →
    ∀ fact, has fact state →
      has fact (analysis.transfer block (analysis.gather blocks graph outgoing node block))
  /-- The facts are known ones. -/
  known_of_has : ∀ (node : Nat) (state : σ), outgoing[node]? = some state →
    ∀ fact, has fact state → known fact

/-- How far blocks can still climb, counted once for each target. -/
def potential (analysis : Analysis σ) (graph : Digraph) (rank : σ → Nat) (height : Nat)
    (outgoing : List σ) : Nat :=
  ∑ node ∈ Finset.range graph.order,
    (height - rank (outgoing.getD node analysis.initial)) *
      (analysis.direction.targets graph node).length

/-- A block that climbs takes at least its number of targets off. -/
theorem potential_set {rank : σ → Nat} {height node : Nat} {outgoing : List σ} {old new : σ}
    (isNode : node < graph.order) (isOld : outgoing[node]? = some old) (rises : rank old < rank new)
    (low : rank new ≤ height) :
    analysis.potential graph rank height (outgoing.set node new) +
        (analysis.direction.targets graph node).length ≤
      analysis.potential graph rank height outgoing := by
  have inside := Finset.mem_range.2 isNode
  rw [potential, potential, ← Finset.add_sum_erase _ _ inside, ← Finset.add_sum_erase _ _ inside]
  have others : ∀ other ∈ (Finset.range graph.order).erase node,
      (outgoing.set node new).getD other analysis.initial = outgoing.getD other analysis.initial := by
    intro other member
    rw [List.getD_eq_getElem?_getD, List.getD_eq_getElem?_getD,
      List.getElem?_set_ne (Finset.ne_of_mem_erase member).symm]
  rw [Finset.sum_congr rfl fun other member => by rw [others other member]]
  have bound := (List.getElem?_eq_some_iff.1 isOld).1
  have here : (outgoing.set node new).getD node analysis.initial = new := by
    rw [List.getD_eq_getElem?_getD, List.getElem?_set_self bound]
    rfl
  have before : outgoing.getD node analysis.initial = old := by
    rw [List.getD_eq_getElem?_getD, isOld]
    rfl
  rw [here, before, Nat.add_right_comm]
  refine Nat.add_le_add_right ?_ _
  rw [← Nat.succ_mul]
  exact Nat.mul_le_mul_right _ (by omega)

namespace Climbs

variable {has : ι → σ → Prop} {known : ι → Prop} {rank : σ → Nat} {height : Nat}

/-- A visit keeps the states rising. -/
theorem rising_set (climbs : analysis.Climbs blocks has known rank height) {outgoing : List σ}
    (rising : analysis.Rising blocks graph has known outgoing) {node : Nat} {block : Block}
    (atNode : blocks[node]? = some block) :
    analysis.Rising blocks graph has known (outgoing.set node
      (analysis.transfer block (analysis.gather blocks graph outgoing node block))) := by
  obtain ⟨length_eq, below, known_of_has⟩ := rising
  have bound : node < outgoing.length := length_eq ▸ (List.getElem?_eq_some_iff.1 atNode).1
  -- Every state gains facts only.
  have rises : ∀ (fact : ι) (source : Nat) (state : σ), outgoing[source]? = some state →
      ∃ other, (outgoing.set node (analysis.transfer block
        (analysis.gather blocks graph outgoing node block)))[source]? = some other ∧
          (has fact state → has fact other) := by
    intro fact source state isState
    by_cases same : node = source
    · subst same
      exact ⟨_, List.getElem?_set_self bound, below node block state atNode isState fact⟩
    · exact ⟨state, (List.getElem?_set_ne same).trans isState, id⟩
  refine ⟨by rw [List.length_set, length_eq], fun other otherBlock state atOther isState fact held => ?_,
    fun other state isState fact held => ?_⟩
  · -- What was sent before is sent again, for nothing that it came from is lost.
    obtain ⟨gives, keeps, adds, tracks, _⟩ := climbs.tracks fact
    refine tracks.transfer_mono (tracks.gather_mono (rises fact)) ?_
    by_cases same : node = other
    · subst same
      rw [List.getElem?_set_self bound, Option.some.injEq] at isState
      obtain rfl := Option.some.inj (atNode.symm.trans atOther)
      exact isState ▸ held
    · rw [List.getElem?_set_ne same] at isState
      exact below other otherBlock state atOther isState fact held
  · by_cases same : node = other
    · subst same
      rw [List.getElem?_set_self bound, Option.some.injEq] at isState
      subst isState
      obtain ⟨gives, keeps, adds, tracks, atBoundary, given, added⟩ := climbs.tracks fact
      have inside := List.mem_of_getElem? atNode
      rcases (tracks.transfer _ _).1 held with isGiven | ⟨_, held⟩
      · exact given block inside isGiven
      · rcases tracks.cases_of_gather held with held | ⟨source, isSource, isAdded⟩ |
          ⟨source, leaves, isLeaving, held⟩
        · exact atBoundary held
        · exact added source isSource block inside isAdded
        · exact known_of_has source leaves isLeaving fact held
    · rw [List.getElem?_set_ne same] at isState
      exact known_of_has other state isState fact held

/-- The visits come to an end within the length of the worklist and the potential: a visit that sends
what was sent before shortens the worklist, and one that sends another state lowers the potential by
what it may push. -/
theorem exists_visit [DecidableEq σ] (climbs : analysis.Climbs blocks has known rank height)
    (order : blocks.length = graph.order) {budget visits : Nat} {worklist : Worklist}
    {incoming outgoing : List σ} (rising : analysis.Rising blocks graph has known outgoing)
    (enough : worklist.queue.length + analysis.potential graph rank height outgoing ≤ budget) :
    ∃ answer, analysis.visit blocks graph budget visits worklist incoming outgoing = some answer := by
  induction budget generalizing visits worklist incoming outgoing with
  | zero =>
    obtain ⟨queue, queued⟩ := worklist
    cases queue with
    | nil => exact ⟨_, rfl⟩
    | cons node queue => rw [List.length_cons] at enough; omega
  | succ budget budgetIH =>
    obtain ⟨queue, queued⟩ := worklist
    cases queue with
    | nil => exact ⟨_, rfl⟩
    | cons node queue =>
      rw [List.length_cons] at enough
      rw [visit]
      dsimp only
      split
      · rename_i block old atNode isOld
        split
        · -- The same state is sent, and the worklist is shorter by the block.
          exact budgetIH rising (by dsimp only; omega)
        · -- Another state is sent: the targets that are pushed are paid for by the climb.
          rename_i changes
          refine budgetIH (climbs.rising_set rising atNode) ?_
          have isNode : node < graph.order := order ▸ (List.getElem?_eq_some_iff.1 atNode).1
          have next := climbs.rising_set rising atNode
          have bound : node < outgoing.length := (List.getElem?_eq_some_iff.1 isOld).1
          have climbed := @potential_set _ analysis _ _ _ _ _ _ _ isNode isOld
            (climbs.rank_lt _ _ (rising.below node block old atNode isOld) (Ne.symm changes))
            (climbs.rank_le _ (next.known_of_has node _ (List.getElem?_set_self bound)))
          have pushed := Worklist.length_push_le ⟨queue, queued.erase node⟩
            (analysis.direction.targets graph node)
          dsimp only at pushed
          omega
      · exact budgetIH rising (by dsimp only; omega)

/-- An analysis whose states climb no higher than a height has a solution when it may visit each block
once, and twice more for each rank on the way, if blocks lead to two others at most. -/
theorem exists_solution [DecidableEq σ] {flow : FlowGraph}
    (climbs : analysis.Climbs flow.blocks has known rank height) (nonempty : flow.blocks ≠ [])
    (few : flow.digraph.edges.length ≤ 2 * flow.blocks.length) {visits : Nat}
    (enough : 1 + 2 * height ≤ visits) : ∃ solution, analysis.solve flow visits = .ok solution := by
  have rising : analysis.Rising flow.blocks flow.digraph has known
      (flow.blocks.map fun _ => analysis.initial) := by
    have empty : ∀ (node : Nat) (state : σ),
        (flow.blocks.map fun _ => analysis.initial)[node]? = some state → ∀ fact, ¬has fact state := by
      intro node state found fact
      obtain ⟨_, _, _, tracks, _⟩ := climbs.tracks fact
      rw [List.getElem?_map, Option.map_eq_some_iff] at found
      obtain ⟨_, _, rfl⟩ := found
      exact tracks.initial
    exact ⟨List.length_map ..,
      fun node _ state _ found fact held => absurd held (empty node state found fact),
      fun node state found fact held => absurd held (empty node state found fact)⟩
  have queued := Worklist.length_ofGraph_le analysis.direction
    (show 0 < flow.digraph.order from List.length_pos_iff.2 nonempty)
  -- At most the height is still to be climbed for each edge.
  have start : analysis.potential flow.digraph rank height
      (flow.blocks.map fun _ => analysis.initial) ≤ height * (2 * flow.blocks.length) := by
    refine le_trans (Finset.sum_le_sum fun node _ => Nat.mul_le_mul_right _ (Nat.sub_le _ _)) ?_
    rw [← Finset.mul_sum, Direction.sum_length_targets]
    exact Nat.mul_le_mul_left _ few
  have budget : flow.blocks.length + height * (2 * flow.blocks.length) ≤
      max visits 1 * flow.blocks.length := by
    refine le_trans (le_of_eq ?_) (Nat.mul_le_mul_right _ (enough.trans (Nat.le_max_left _ _)))
    rw [Nat.add_mul, Nat.one_mul, Nat.mul_left_comm, Nat.mul_assoc]
  obtain ⟨⟨incoming, outgoing, count⟩, visited⟩ : ∃ answer, analysis.visit flow.blocks flow.digraph
      (max visits 1 * flow.blocks.length) 0 (.ofGraph analysis.direction flow.digraph)
      (flow.blocks.map fun _ => analysis.initial) (flow.blocks.map fun _ => analysis.initial) =
        some answer :=
    climbs.exists_visit rfl rising ((Nat.add_le_add queued start).trans budget)
  unfold solve
  dsimp only
  rw [visited]
  cases analysis.direction with
  | forward => exact ⟨_, rfl⟩
  | backward => exact ⟨_, rfl⟩

end Climbs

end Analysis

end Midend
