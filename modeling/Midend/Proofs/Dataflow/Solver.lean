import Midend.Dataflow.Solver
import Midend.Proofs.BitSet
import Midend.Proofs.Digraph.Traversal

/-! # Solutions of dataflow equations

A block is settled when what flows into it is what its neighbours send, and what flows out of it is
what its transfer makes of that. A visit settles a block and upsets only blocks that are put on the
worklist again, so when the worklist is empty all blocks are settled (`Analysis.settled_of_solve`),
whatever the analysis. -/

namespace Midend

/-- The neighbours that a node sends its state to are those that it is a source of. -/
theorem Direction.mem_targets {direction : Direction} {graph : Digraph} {node other : Nat} :
    other ∈ direction.targets graph node ↔ node ∈ direction.sources graph other := by
  cases direction with
  | forward => rw [targets, sources, Digraph.mem_successors, Digraph.mem_predecessors]
  | backward => rw [targets, sources, Digraph.mem_successors, Digraph.mem_predecessors]

/-- Sources are nodes. -/
theorem Direction.sources_lt {direction : Direction} {graph : Digraph} {node source : Nat}
    (member : source ∈ direction.sources graph node) : source < graph.order := by
  cases direction with
  | forward => exact Digraph.Edge.source_lt (Digraph.mem_predecessors.1 member)
  | backward => exact Digraph.successors_lt member

/-- Targets are nodes. -/
theorem Direction.targets_lt {direction : Direction} {graph : Digraph} {node target : Nat}
    (member : target ∈ direction.targets graph node) : target < graph.order := by
  cases direction with
  | forward => exact Digraph.successors_lt member
  | backward => exact Digraph.Edge.source_lt (Digraph.mem_predecessors.1 member)

namespace Analysis

/-! ## Worklists -/

/-- The set of a worklist has no blocks that are not in its queue. -/
structure Worklist.Valid (worklist : Worklist) : Prop where
  /-- The set is one. -/
  fits : worklist.queued.Fits
  /-- What is in the set is in the queue. -/
  mem_queue : ∀ node ∈ worklist.queued, node ∈ worklist.queue

namespace Worklist.Valid

variable {worklist : Worklist}

/-- Nodes are added to the queue unless they are there. -/
theorem push (valid : worklist.Valid) (nodes : List Nat) : (worklist.push nodes).Valid ∧
    ∀ node, node ∈ worklist.queue ∨ node ∈ nodes → node ∈ (worklist.push nodes).queue := by
  unfold Worklist.push
  induction nodes generalizing worklist with
  | nil => exact ⟨valid, fun node => by simp⟩
  | cons first rest restIH =>
    rw [List.foldl_cons]
    split
    · rename_i known
      obtain ⟨validRest, members⟩ := restIH valid
      refine ⟨validRest, fun node member => members node ?_⟩
      rcases member with queued | isNode
      · exact .inl queued
      · rcases List.mem_cons.1 isNode with rfl | inRest
        · exact .inl (valid.mem_queue node known)
        · exact .inr inRest
    · have extended : Valid ⟨worklist.queue ++ [first], worklist.queued.insert first⟩ := by
        refine ⟨valid.fits.insert first, fun node member => ?_⟩
        rw [List.mem_append, List.mem_singleton]
        exact (valid.fits.mem_of_mem_insert member).symm.imp_left (valid.mem_queue node)
      obtain ⟨validRest, members⟩ := restIH extended
      refine ⟨validRest, fun node member => members node ?_⟩
      rw [List.mem_append, List.mem_singleton]
      rw [List.mem_cons] at member
      tauto

/-- The first node is taken off the queue. -/
theorem pop {node : Nat} {queue : List Nat} {queued : BitSet}
    (valid : Valid ⟨node :: queue, queued⟩) : Valid ⟨queue, queued.erase node⟩ := by
  refine ⟨valid.fits.erase node, fun other member => ?_⟩
  obtain ⟨apart, inQueued⟩ := valid.fits.mem_erase.1 member
  exact (List.mem_cons.1 (valid.mem_queue other inQueued)).resolve_left apart

end Worklist.Valid

/-- At the start all nodes are queued. -/
theorem Worklist.valid_ofGraph (direction : Direction) (graph : Digraph) :
    (ofGraph direction graph).Valid ∧
      ∀ node, node < graph.order → node ∈ (ofGraph direction graph).queue := by
  have start : Valid ⟨[], .empty graph.order⟩ :=
    ⟨BitSet.fits_empty _, fun node member => absurd member (BitSet.not_mem_empty _ node)⟩
  obtain ⟨valid, members⟩ := start.push _
  exact ⟨valid, fun node below => members node (.inr (List.mem_append_right _ (by simpa)))⟩

/-! ## Visits -/

variable {σ : Type} {analysis : Analysis σ} {blocks : List Block} {graph : Digraph}

/-- The states at a block fit those at its neighbours. -/
def Settled (analysis : Analysis σ) (blocks : List Block) (graph : Digraph)
    (incoming outgoing : List σ) (node : Nat) : Prop :=
  ∀ block, blocks[node]? = some block →
    incoming[node]? = some (analysis.gather blocks graph outgoing node block) ∧
    outgoing[node]? =
      some (analysis.transfer block (analysis.gather blocks graph outgoing node block))

/-- What a source sends to a block, if there is such a source and it has a state. -/
def sent? (analysis : Analysis σ) (blocks : List Block) (outgoing : List σ) (block : Block)
    (source : Nat) : Option σ :=
  match blocks[source]?, outgoing[source]? with
  | some neighbour, some state => some (analysis.cross neighbour block state)
  | _, _ => none

/-- What is sent is what crosses the edge from the source. -/
theorem sent?_eq_some_iff {outgoing : List σ} {block : Block} {source : Nat} {state : σ} :
    analysis.sent? blocks outgoing block source = some state ↔
      ∃ other leaves, blocks[source]? = some other ∧ outgoing[source]? = some leaves ∧
        analysis.cross other block leaves = state := by
  unfold sent?
  split
  · rename_i other leaves isOther isLeaving
    rw [isOther, isLeaving, Option.some.injEq]
    constructor
    · exact fun crosses => ⟨other, leaves, rfl, rfl, crosses⟩
    · rintro ⟨_, _, ⟨⟩, ⟨⟩, crosses⟩
      exact crosses
  · rename_i missing
    constructor
    · exact nofun
    · rintro ⟨other, leaves, isOther, isLeaving, _⟩
      exact absurd isLeaving (missing other leaves isOther)

/-- What flows into a block is the boundary if it has no sources, and otherwise what they send,
merged. -/
theorem gather_eq (graph : Digraph) (outgoing : List σ) (node : Nat) (block : Block) :
    analysis.gather blocks graph outgoing node block =
      if (analysis.direction.sources graph node).isEmpty then analysis.boundary
      else analysis.merge
        ((analysis.direction.sources graph node).filterMap (analysis.sent? blocks outgoing block)) :=
  rfl

/-- What flows into a block depends on its sources only. -/
theorem gather_set {outgoing : List σ} {node other : Nat} {block : Block} (state : σ)
    (apart : node ∉ analysis.direction.sources graph other) :
    analysis.gather blocks graph (outgoing.set node state) other block =
      analysis.gather blocks graph outgoing other block := by
  rw [gather_eq, gather_eq]
  congr 2
  refine List.filterMap_congr fun source isSource => ?_
  have isOther : node ≠ source := fun same => apart (same ▸ isSource)
  rw [sent?, sent?, List.getElem?_set_ne isOther]

/-- The states part way through the visits: every block is queued or settled. -/
structure Underway (analysis : Analysis σ) (blocks : List Block) (graph : Digraph)
    (worklist : Worklist) (incoming outgoing : List σ) : Prop where
  /-- What is queued is in the set of what is queued. -/
  valid : worklist.Valid
  /-- Every block has two states. -/
  lengths : incoming.length = blocks.length ∧ outgoing.length = blocks.length
  /-- A block that is not settled is visited again. -/
  settled : ∀ node, node < blocks.length → node ∈ worklist.queue ∨
    Settled analysis blocks graph incoming outgoing node

namespace Underway

variable {incoming outgoing : List σ} {node : Nat} {block : Block} {queue : List Nat}
  {queued : BitSet}

/-- A visit that sends what was sent before settles a block and upsets none. -/
theorem same (underway : Underway analysis blocks graph ⟨node :: queue, queued⟩ incoming outgoing)
    (atNode : blocks[node]? = some block)
    (isSame : outgoing[node]? =
      some (analysis.transfer block (analysis.gather blocks graph outgoing node block))) :
    Underway analysis blocks graph ⟨queue, queued.erase node⟩
      (incoming.set node (analysis.gather blocks graph outgoing node block)) outgoing := by
  obtain ⟨valid, lengths, settled⟩ := underway
  refine ⟨valid.pop, ⟨by simp [lengths.1], lengths.2⟩, fun other below => ?_⟩
  by_cases isNode : other = node
  · subst isNode
    refine .inr fun found isFound => ?_
    obtain rfl := Option.some.inj (isFound.symm.trans atNode)
    exact ⟨List.getElem?_set_self (lengths.1 ▸ below), isSame⟩
  · rcases settled other below with inQueue | isSettled
    · exact .inl ((List.mem_cons.1 inQueue).resolve_left isNode)
    · refine .inr fun found isFound => ?_
      rw [List.getElem?_set_ne fun same => isNode same.symm]
      exact isSettled found isFound

/-- A visit settles a block and upsets only blocks that it sends its state to, which are queued. -/
theorem changed
    (underway : Underway analysis blocks graph ⟨node :: queue, queued⟩ incoming outgoing)
    (atNode : blocks[node]? = some block) :
    Underway analysis blocks graph
      (.push ⟨queue, queued.erase node⟩ (analysis.direction.targets graph node))
      (incoming.set node (analysis.gather blocks graph outgoing node block))
      (outgoing.set node
        (analysis.transfer block (analysis.gather blocks graph outgoing node block))) := by
  obtain ⟨valid, lengths, settled⟩ := underway
  obtain ⟨validPushed, members⟩ := valid.pop.push (analysis.direction.targets graph node)
  refine ⟨validPushed, ⟨by simp [lengths.1], by simp [lengths.2]⟩, fun other below => ?_⟩
  by_cases sent : other ∈ analysis.direction.targets graph node
  · exact .inl (members other (.inr sent))
  rw [Direction.mem_targets] at sent
  by_cases isNode : other = node
  · subst isNode
    refine .inr fun found isFound => ?_
    obtain rfl := Option.some.inj (isFound.symm.trans atNode)
    rw [gather_set _ sent]
    exact ⟨List.getElem?_set_self (lengths.1 ▸ below),
      List.getElem?_set_self (lengths.2 ▸ below)⟩
  · rcases settled other below with inQueue | isSettled
    · exact .inl (members other (.inl ((List.mem_cons.1 inQueue).resolve_left isNode)))
    · refine .inr fun found isFound => ?_
      rw [gather_set _ sent, List.getElem?_set_ne fun same => isNode same.symm,
        List.getElem?_set_ne fun same => isNode same.symm]
      exact isSettled found isFound

/-- A node that has no block or no states is passed over. -/
theorem missing
    (underway : Underway analysis blocks graph ⟨node :: queue, queued⟩ incoming outgoing)
    (absent : ∀ block old, blocks[node]? = some block → outgoing[node]? = some old → False) :
    Underway analysis blocks graph ⟨queue, queued.erase node⟩ incoming outgoing := by
  obtain ⟨valid, lengths, settled⟩ := underway
  refine ⟨valid.pop, lengths, fun other below => ?_⟩
  rcases settled other below with inQueue | isSettled
  · rcases List.mem_cons.1 inQueue with rfl | inQueue
    · exact absurd (absent _ _ (List.getElem?_eq_getElem below)
        (List.getElem?_eq_getElem (lengths.2.symm ▸ below))) id
    · exact .inl inQueue
  · exact .inr isSettled

end Underway

/-- What each kind of visit keeps holds when the worklist is empty: a visit that sends what was sent
before, one that sends another state, and one of a node that has no block or no state. -/
theorem keeps_of_visit [DecidableEq σ] {keeps : Worklist → List σ → List σ → Prop}
    (same : ∀ node queue queued incoming outgoing block,
      keeps ⟨node :: queue, queued⟩ incoming outgoing → blocks[node]? = some block →
      outgoing[node]? =
        some (analysis.transfer block (analysis.gather blocks graph outgoing node block)) →
      keeps ⟨queue, queued.erase node⟩
        (incoming.set node (analysis.gather blocks graph outgoing node block)) outgoing)
    (changed : ∀ node queue queued incoming outgoing block,
      keeps ⟨node :: queue, queued⟩ incoming outgoing → blocks[node]? = some block →
      keeps (.push ⟨queue, queued.erase node⟩ (analysis.direction.targets graph node))
        (incoming.set node (analysis.gather blocks graph outgoing node block))
        (outgoing.set node
          (analysis.transfer block (analysis.gather blocks graph outgoing node block))))
    (missing : ∀ node queue queued incoming outgoing,
      keeps ⟨node :: queue, queued⟩ incoming outgoing →
      (∀ block old, blocks[node]? = some block → outgoing[node]? = some old → False) →
      keeps ⟨queue, queued.erase node⟩ incoming outgoing)
    {budget visits count : Nat} {worklist : Worklist} {incoming outgoing before after : List σ}
    (begins : keeps worklist incoming outgoing)
    (visited : analysis.visit blocks graph budget visits worklist incoming outgoing =
      some (before, after, count)) : ∃ queued, keeps ⟨[], queued⟩ before after := by
  -- Each visit takes one from the budget, and goes on with another worklist and other states.
  induction budget generalizing visits worklist incoming outgoing with
  | zero =>
    obtain ⟨queue, queued⟩ := worklist
    cases queue with
    | nil =>
      obtain ⟨rfl, rfl, _⟩ : incoming = before ∧ outgoing = after ∧ visits = count := by
        simpa [visit] using visited
      exact ⟨queued, begins⟩
    | cons node queue => simp [visit] at visited
  | succ budget budgetIH =>
    obtain ⟨queue, queued⟩ := worklist
    cases queue with
    | nil =>
      obtain ⟨rfl, rfl, _⟩ : incoming = before ∧ outgoing = after ∧ visits = count := by
        simpa [visit] using visited
      exact ⟨queued, begins⟩
    | cons node queue =>
      rw [visit] at visited
      dsimp only at visited
      split at visited
      · rename_i block old atNode isOld
        split at visited
        · rename_i isSame
          exact budgetIH (same _ _ _ _ _ _ begins atNode (isSame ▸ isOld)) visited
        · exact budgetIH (changed _ _ _ _ _ _ begins atNode) visited
      · rename_i absent
        exact budgetIH (missing _ _ _ _ _ begins absent) visited

/-- When the worklist is empty, all blocks are settled. -/
theorem settled_of_visit [DecidableEq σ] {budget visits count : Nat} {worklist : Worklist}
    {incoming outgoing before after : List σ}
    (underway : Underway analysis blocks graph worklist incoming outgoing)
    (visited : analysis.visit blocks graph budget visits worklist incoming outgoing =
      some (before, after, count)) (node : Nat) : Settled analysis blocks graph before after node := by
  obtain ⟨_, done⟩ := keeps_of_visit (fun _ _ _ _ _ _ => Underway.same)
    (fun _ _ _ _ _ _ => Underway.changed) (fun _ _ _ _ _ => Underway.missing) underway visited
  intro block atNode
  have below := (List.getElem?_eq_some_iff.1 atNode).1
  exact (done.settled node below).resolve_left List.not_mem_nil block atNode

/-- What holds of each state holds of each when one of them is replaced by a state of which it
holds. -/
theorem holds_of_set {holds : Nat → σ → Prop} {states : List σ}
    (held : ∀ node state, states[node]? = some state → holds node state) {node : Nat} {result : σ}
    (sent : holds node result) :
    ∀ other state, (states.set node result)[other]? = some state → holds other state := by
  intro other state found
  rw [List.getElem?_set] at found
  split at found
  · rename_i same
    subst same
    split at found
    · obtain rfl := Option.some.inj found
      exact sent
    · cases found
  · exact held other state found

/-- What holds of the states at the start, and of what a block sends when it holds of what all blocks
send, holds of what is sent when the worklist is empty. -/
theorem invariant_of_visit [DecidableEq σ] {holds : Nat → σ → Prop}
    (sends : ∀ node block outgoing, blocks[node]? = some block →
      (∀ other state, outgoing[other]? = some state → holds other state) →
        holds node (analysis.transfer block (analysis.gather blocks graph outgoing node block)))
    {budget visits count : Nat} {worklist : Worklist} {incoming outgoing before after : List σ}
    (held : ∀ node state, outgoing[node]? = some state → holds node state)
    (visited : analysis.visit blocks graph budget visits worklist incoming outgoing =
      some (before, after, count)) :
    ∀ node state, after[node]? = some state → holds node state := by
  obtain ⟨_, kept⟩ := @keeps_of_visit _ _ _ _ _
    (fun _ _ outgoing => ∀ node state, outgoing[node]? = some state → holds node state)
    (fun _ _ _ _ _ _ held _ _ => held)
    (fun node _ _ _ outgoing block held atNode =>
      holds_of_set held (sends node block outgoing atNode held))
    (fun _ _ _ _ _ held _ => held) _ _ _ _ _ _ _ _ held visited
  exact kept

/-- The states of a solution are settled; against the edges what flows into a block is its state at
the end. -/
theorem settled_of_solve [DecidableEq σ] {flow : FlowGraph} {visits : Nat} {solution : Solution σ}
    (solved : analysis.solve flow visits = .ok solution) : ∃ incoming outgoing,
      (∀ node, Settled analysis flow.blocks flow.digraph incoming outgoing node) ∧
      ∃ count, solution = match analysis.direction with
        | .forward => ⟨flow.names, incoming, outgoing, count⟩
        | .backward => ⟨flow.names, outgoing, incoming, count⟩ := by
  unfold solve at solved
  dsimp only at solved
  obtain ⟨valid, all⟩ := Worklist.valid_ofGraph analysis.direction flow.digraph
  split at solved
  · cases solved
  · rename_i incoming outgoing count visited
    refine ⟨incoming, outgoing, ?_, count, ?_⟩
    · exact settled_of_visit
        ⟨valid, ⟨by simp, by simp⟩, fun node below => .inl (all node below)⟩ visited
    · cases isDirection : analysis.direction with
      | forward =>
        rw [isDirection] at solved
        exact (Except.ok.inj solved).symm
      | backward =>
        rw [isDirection] at solved
        exact (Except.ok.inj solved).symm

end Analysis

end Midend
