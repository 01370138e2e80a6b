import Midend.Proofs.Dominance.Meeting
import Midend.Proofs.Ssa.Placement

/-! # Iterated frontiers

The blocks that merge a variable are the iterated frontier of the blocks that write it: the least set
that is closed under frontiers from there (`Ssa.placePhis_iterates`). The worklist only takes up blocks
that it has to, and never the blocks that write the variable a second time, since all of these were on
it at the start. So wherever values of a variable from two blocks can meet for the first time, they are
merged. -/

namespace Midend

namespace Ssa

/-- A block defines a variable: one of its instructions writes it, or the block is the entry and the
variable a parameter. -/
def Defines (graph : FlowGraph) (name var : String) : Prop :=
  (name = graph.entryName ∧ var ∈ graph.paramNames) ∨
    ∃ block ∈ graph.blocks, block.name = name ∧ var ∈ block.defs

/-- The blocks that define a variable are those that are collected as its writers. -/
theorem writes_iff {graph : FlowGraph} {name var : String} :
    Writes graph name var ↔ Defines graph name var := by
  constructor
  · intro isWritten
    refine (writes_cases isWritten).imp_right ?_
    rintro ⟨block, member, isName, instr, inside, isDest⟩
    exact ⟨block, member, isName, List.mem_filterMap.2 ⟨instr, inside, isDest⟩⟩
  · rintro (⟨rfl, isParam⟩ | ⟨block, member, rfl, isDef⟩)
    · obtain ⟨param, inside, rfl⟩ := List.mem_map.1 isParam
      exact ⟨param.ty, List.mem_append_left _ (List.mem_map.2 ⟨param, inside, rfl⟩)⟩
    · obtain ⟨instr, inside, isDest⟩ := List.mem_filterMap.1 isDef
      exact writes_of_mem member inside isDest

/-- Following frontiers from blocks of a set that is closed under frontiers does not lead out of it.
The set need not have the defining blocks, which are on the worklist to begin with. -/
theorem placeFrom_least {frontier : String → List String} {defining : SortedSet String}
    {holds : String → Prop}
    (closed : ∀ node target, node ∈ defining ∨ holds node → target ∈ frontier node → holds target)
    {budget : Nat} {worklist : List String} {placed : SortedSet String}
    (start : ∀ node ∈ worklist, node ∈ defining ∨ holds node) (known : ∀ node ∈ placed, holds node) :
    ∀ node ∈ placeFrom frontier defining budget worklist placed, holds node := by
  induction budget generalizing worklist placed with
  | zero => exact known
  | succ budget budgetIH =>
    cases worklist with
    | nil => exact known
    | cons head worklist =>
      have found : ∀ node ∈ (frontier head).filter fun name => !placed.contains name, holds node :=
        fun node member =>
          closed head node (start head (List.mem_cons_self ..)) (List.mem_filter.1 member).1
      refine budgetIH (fun node member => ?_) fun node member => ?_
      · rcases List.mem_append.1 member with isNew | isOld
        · exact .inr (found node (List.mem_filter.1 (List.mem_reverse.1 isNew)).1)
        · exact start node (List.mem_cons_of_mem _ isOld)
      · exact (SortedSet.mem_insertAll.1 member).elim (found node) (known node)

section Built

variable {graph : FlowGraph} {dominance : Dominance} {successors : SortedMap String (List String)}
  {entry : String}

/-- The frontier of a block holds what lies beyond it. -/
theorem mem_frontier_iff (built : dominance.Built successors entry) {name target : String} :
    target ∈ dominance.frontier name ↔ Beyond (Succeeds successors) entry name target :=
  built.mem_frontier

/-- A set that is closed under frontiers from the blocks that write a variable has all blocks that
merge it. -/
theorem holds_of_placed (built : dominance.Built successors entry) {var : String}
    {holds : String → Prop} (closed : ∀ node target, Writes graph node var ∨ holds node →
      target ∈ dominance.frontier node → holds target)
    {node : String} (placed : Placed graph dominance node var) : holds node := by
  obtain ⟨phi, member, rfl⟩ := placed
  obtain ⟨var, ty, defining, isDefining, _, rfl, inPlace⟩ := mem_placePhis.1 member
  refine placeFrom_least (fun name target held onFrontier => ?_) (fun name member => ?_)
    (fun name member => absurd member (SortedSet.not_mem_empty name)) node inPlace
  · rw [getD_frontierTable built] at onFrontier
    exact closed name target (held.imp_left (mem_of_isDefining isDefining).1) onFrontier
  · exact .inl (SortedSet.mem_toList.1 (List.mem_reverse.1 (List.mem_filter.1 member).1))

end Built

/-! ## Result -/

/-- In a flow graph of which all blocks are reached, the frontiers are those that paths define, and a
variable is merged in the least set of blocks that has the frontiers of all blocks which define the
variable and of its own. Wherever two paths from blocks that define the variable meet for the first
time, it is merged. -/
theorem placePhis_iterates {graph : FlowGraph} (nonempty : graph.blocks ≠ [])
    (nodup : graph.names.Nodup)
    (targets : ∀ block ∈ graph.blocks, ∀ target ∈ block.successors, target ∈ graph.names)
    (reachable : ∀ name ∈ graph.names, graph.Reachable name) :
    ∃ dominance, Dominance.ofFlowGraph graph = .ok dominance ∧
      (∀ name target, target ∈ dominance.frontier name ↔
        Beyond graph.Leads graph.entryName name target) ∧
      ∀ var,
        (∀ node target, Defines graph node var ∨ Placed graph dominance node var →
          target ∈ dominance.frontier node → Placed graph dominance target var) ∧
        (∀ holds : String → Prop, (∀ node target, Defines graph node var ∨ holds node →
          target ∈ dominance.frontier node → holds target) →
            ∀ node, Placed graph dominance node var → holds node) ∧
        ∀ left right finish leftNodes rightNodes, Defines graph left var → Defines graph right var →
          Path graph.Leads left leftNodes finish → 1 < leftNodes.length →
          Path graph.Leads right rightNodes finish → 1 < rightNodes.length →
          (∀ node ∈ leftNodes, node ∈ rightNodes → node = finish) →
            Placed graph dominance finish var := by
  obtain ⟨dominance, found, built⟩ := FlowGraph.exists_dominance_of_targets nonempty nodup targets
  have frontiers : ∀ name target, target ∈ dominance.frontier name ↔
      Beyond graph.Leads graph.entryName name target := fun name target => by
    rw [mem_frontier_iff built, FlowGraph.succeeds_successorMap nodup]
  refine ⟨dominance, found, frontiers, fun var => ?_⟩
  have closed : ∀ node target, Defines graph node var ∨ Placed graph dominance node var →
      target ∈ dominance.frontier node → Placed graph dominance target var :=
    fun node target held => placed_of_frontier built (held.imp_left writes_iff.2)
  have reached : ∀ {name}, Defines graph name var → graph.Reachable name := by
    rintro name (⟨rfl, _⟩ | ⟨block, member, rfl, _⟩)
    · exact .refl _ _
    · exact reachable _ (List.mem_map_of_mem member)
  refine ⟨closed, fun holds others node => ?_, ?_⟩
  · exact holds_of_placed built fun name target held =>
      others name target (held.imp_left writes_iff.1)
  · intro left right finish leftNodes rightNodes leftDefines rightDefines leftPath leftLong
      rightPath rightLong meet
    -- Both paths end with an edge, before which they have nothing but the end in common.
    cases leftPath with
    | start => exact absurd leftLong (by simp)
    | step leftShorter leftEdge =>
      cases rightPath with
      | start => exact absurd rightLong (by simp)
      | step rightShorter rightEdge =>
        refine Path.holds_of_meeting (fun node target held beyond =>
          closed node target held ((frontiers node target).2 beyond)) leftShorter leftEdge
            rightShorter rightEdge (reached leftDefines) (reached rightDefines) leftDefines
              rightDefines fun node inLeft inRight => ?_
        exact meet node (List.mem_cons_of_mem _ inLeft) (List.mem_cons_of_mem _ inRight)

/-- A loop that is entered at both of its blocks. A variable is written before it and in both of
them. -/
def enteredTwice : FlowGraph where
  name := "twice"
  params := [⟨"go", .bool⟩]
  returnType := some .int
  pos := none
  blocks := [⟨"start", [.const "x" .int (.int 0), .br "go" "left" "right"]⟩,
    ⟨"left", [.const "x" .int (.int 1), .jmp "right"]⟩,
    ⟨"right", [.const "x" .int (.int 2), .br "go" "left" "done"]⟩, ⟨"done", [.ret (some "x")]⟩]
  nextKey := 0
  nextBlock := 0

/-- In each block of the loop the path into the loop meets the path from its other block, so both
blocks merge the variable. -/
theorem placePhis_iterates_enteredTwice : ∃ dominance,
    Dominance.ofFlowGraph enteredTwice = .ok dominance ∧ Placed enteredTwice dominance "left" "x" ∧
      Placed enteredTwice dominance "right" "x" := by
  have leads : ∀ {source target}, target ∈ enteredTwice.successorsOf source →
      enteredTwice.Leads source target := fun member => member
  have toLeft : enteredTwice.Leads "start" "left" := leads (by decide)
  have toRight : enteredTwice.Leads "start" "right" := leads (by decide)
  have reachable : ∀ name ∈ enteredTwice.names, enteredTwice.Reachable name := by
    intro name member
    have cases : name = "start" ∨ name = "left" ∨ name = "right" ∨ name = "done" := by
      simpa [enteredTwice, FlowGraph.names] using member
    rcases cases with rfl | rfl | rfl | rfl
    · exact .refl _ _
    · exact (Reaches.refl _ _).step toLeft
    · exact (Reaches.refl _ _).step toRight
    · exact ((Reaches.refl _ _).step toRight).step (leads (by decide))
  obtain ⟨dominance, found, _, sites⟩ :=
    placePhis_iterates (by decide) (by decide) (by decide) reachable
  obtain ⟨_, _, meeting⟩ := sites "x"
  have defines : ∀ {name}, (∃ block ∈ enteredTwice.blocks, block.name = name ∧ "x" ∈ block.defs) →
      Defines enteredTwice name "x" := .inr
  refine ⟨dominance, found, ?_, ?_⟩
  · exact meeting "start" "right" "left" _ _ (defines (by decide)) (defines (by decide))
      (Path.start.step toLeft) (by decide) (Path.start.step (leads (by decide))) (by decide)
      (by decide)
  · exact meeting "start" "left" "right" _ _ (defines (by decide)) (defines (by decide))
      (Path.start.step toRight) (by decide) (Path.start.step (leads (by decide))) (by decide)
      (by decide)

end Ssa

end Midend
