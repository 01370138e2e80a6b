import Midend.Digraph.Traversal
import Midend.Proofs.BitSet
import Midend.Proofs.Digraph.Discovery
import Mathlib.Algebra.BigOperators.Group.Finset.Piecewise

/-! # What traversals list

The traversals with a stack list what recursive searches find: the post-order is that of the
depth-first tree (`postorder_depthFirst`), and the discovery order is the pre-order of a search that
takes nodes early (`discoveryOrder_takesEarly`). So both list exactly the nodes that a path from the
start reaches (`mem_discoveryOrder`, `mem_postorder`), and `reachable` is the set of these nodes
(`mem_reachable`). Both run on a budget of steps; a measure of the work that is left shows that it is
never spent early. -/

namespace Midend

namespace Digraph

/-! ## Work that is left -/

/-- The nodes that are not marked. -/
def unmarked (graph : Digraph) (marked : BitSet) : Finset Nat :=
  (Finset.range graph.order).filter (· ∉ marked)

@[simp] theorem mem_unmarked {graph : Digraph} {marked : BitSet} {node : Nat} :
    node ∈ graph.unmarked marked ↔ node < graph.order ∧ node ∉ marked := by
  rw [unmarked, Finset.mem_filter, Finset.mem_range]

/-- Nothing is marked at first. -/
@[simp] theorem unmarked_empty (graph : Digraph) :
    graph.unmarked (.empty graph.order) = Finset.range graph.order :=
  Finset.filter_true_of_mem fun _ _ => BitSet.not_mem_empty _ _

/-- Marking a node takes it away. -/
theorem unmarked_insert {graph : Digraph} {marked : BitSet} (fits : marked.Fits)
    (capacity : marked.capacity = graph.order) {node : Nat} (below : node < graph.order) :
    graph.unmarked (marked.insert node) = (graph.unmarked marked).erase node := by
  ext other
  have members := fits.mem_insert (capacity ▸ below : node < marked.capacity) other
  rw [mem_unmarked, members, Finset.mem_erase, mem_unmarked]
  tauto

/-- A weight for every node that is not marked, in all. -/
def openWeight (graph : Digraph) (weight : Nat → Nat) (marked : BitSet) : Nat :=
  ∑ node ∈ (Finset.range graph.order).filter (· ∉ marked), weight node

/-- Marking a node takes its weight off. -/
theorem openWeight_insert {graph : Digraph} (weight : Nat → Nat) {marked : BitSet}
    (fits : marked.Fits) (capacity : marked.capacity = graph.order) {node : Nat}
    (below : node < graph.order) (unmarked : node ∉ marked) :
    graph.openWeight weight (marked.insert node) + weight node = graph.openWeight weight marked := by
  show ∑ other ∈ graph.unmarked (marked.insert node), weight other + weight node =
    ∑ other ∈ graph.unmarked marked, weight other
  rw [unmarked_insert fits capacity below]
  exact Finset.sum_erase_add _ _ (mem_unmarked.2 ⟨below, unmarked⟩)

/-- Nothing is marked at first. -/
theorem openWeight_empty (graph : Digraph) (weight : Nat → Nat) :
    graph.openWeight weight (.empty graph.order) = ∑ node ∈ Finset.range graph.order, weight node := by
  show ∑ node ∈ graph.unmarked (.empty graph.order), weight node = _
  rw [unmarked_empty]

/-- Every edge has one end of a kind. -/
theorem sum_length_filter (graph : Digraph) {ends : Nat × Nat → Nat}
    (below : ∀ edge ∈ graph.edges, ends edge < graph.order) :
    ∑ node ∈ Finset.range graph.order, (graph.edges.filter (ends · == node)).length =
      graph.edges.length := by
  generalize graph.edges = edges at below ⊢
  induction edges with
  | nil => simp
  | cons edge rest restIH =>
    have split : ∀ node, ((edge :: rest).filter (ends · == node)).length =
        (if ends edge = node then 1 else 0) + (rest.filter (ends · == node)).length := by
      intro node
      rw [List.filter_cons]
      by_cases same : ends edge = node
      · simp [same, Nat.add_comm]
      · simp [same]
    have inRange : ends edge ∈ Finset.range graph.order :=
      Finset.mem_range.2 (below edge (List.mem_cons_self ..))
    rw [Finset.sum_congr rfl fun node _ => split node, Finset.sum_add_distrib,
      restIH fun other member => below other (List.mem_cons_of_mem _ member),
      Finset.sum_ite_eq, if_pos inRange, List.length_cons, Nat.add_comm]

/-- The nodes together have as many successors as there are edges. -/
theorem sum_length_successors (graph : Digraph) :
    ∑ node ∈ Finset.range graph.order, (graph.successors node).length = graph.edges.length := by
  simp only [successors, List.length_map]
  exact graph.sum_length_filter fun edge member => (graph.edges_lt edge member).1

/-- The nodes together have as many predecessors as there are edges. -/
theorem sum_length_predecessors (graph : Digraph) :
    ∑ node ∈ Finset.range graph.order, (graph.predecessors node).length = graph.edges.length := by
  simp only [predecessors, List.length_map]
  exact graph.sum_length_filter fun edge member => (graph.edges_lt edge member).2

/-! ## Discovery order -/

/-- What pushing the unmarked ones of several nodes does to the marks and the stack. -/
structure Pushed (graph : Digraph) (marked marked' : BitSet) (stack stack' targets : List Nat) :
    Prop where
  /-- The marks still fit. -/
  fits : marked'.Fits
  /-- The capacity is the same. -/
  capacity : marked'.capacity = marked.capacity
  /-- What was marked before and the given nodes are marked. -/
  mem_marked : ∀ node, node ∈ marked' ↔ node ∈ marked ∨ node ∈ targets
  /-- The newly marked nodes are on the stack. -/
  mem_stack : ∀ node, node ∈ stack' ↔ node ∈ stack ∨ (node ∈ targets ∧ node ∉ marked)
  /-- As many nodes are put on the stack as are marked. -/
  work : stack'.length + graph.openWeight (fun _ => 1) marked' =
    stack.length + graph.openWeight (fun _ => 1) marked

/-- Pushing marks the given nodes and stacks the new ones. -/
theorem pushed (graph : Digraph) {marked : BitSet} (fits : marked.Fits)
    (capacity : marked.capacity = graph.order) (stack targets : List Nat)
    (below : ∀ target ∈ targets, target < graph.order) :
    Pushed graph marked (pushUnmarked marked stack targets).1 stack
      (pushUnmarked marked stack targets).2 targets := by
  induction targets generalizing marked stack with
  | nil => exact ⟨fits, rfl, by simp [pushUnmarked], by simp [pushUnmarked], rfl⟩
  | cons target rest restIH =>
    have targetBelow := below target (List.mem_cons_self ..)
    have restBelow : ∀ other ∈ rest, other < graph.order :=
      fun other member => below other (List.mem_cons_of_mem _ member)
    rw [pushUnmarked]
    -- A marked node changes nothing; another one is marked, stacked and counted.
    by_cases seen : target ∈ marked
    · rw [if_pos (BitSet.contains_iff.2 seen)]
      have after := restIH fits capacity stack restBelow
      refine ⟨after.fits, after.capacity, fun node => ?_, fun node => ?_, after.work⟩
      · rw [after.mem_marked, List.mem_cons]
        constructor
        · tauto
        · rintro (old | rfl | new)
          · exact .inl old
          · exact .inl seen
          · exact .inr new
      · rw [after.mem_stack, List.mem_cons]
        constructor
        · tauto
        · rintro (old | ⟨rfl | new, fresh⟩)
          · exact .inl old
          · exact absurd seen fresh
          · exact .inr ⟨new, fresh⟩
    · rw [if_neg (fun held => seen (BitSet.contains_iff.1 held))]
      have members := fits.mem_insert (capacity ▸ targetBelow : target < marked.capacity)
      have after := restIH (fits.insert target) ((BitSet.capacity_insert ..).trans capacity)
        (target :: stack) restBelow
      have weight := openWeight_insert (fun _ => 1) fits capacity targetBelow seen
      refine ⟨after.fits, after.capacity.trans (BitSet.capacity_insert ..), fun node => ?_,
        fun node => ?_, ?_⟩
      · rw [after.mem_marked, members, List.mem_cons]
        tauto
      · rw [after.mem_stack, members, List.mem_cons, List.mem_cons]
        constructor
        · rintro ((rfl | old) | ⟨new, fresh⟩)
          · exact .inr ⟨.inl rfl, seen⟩
          · exact .inl old
          · exact .inr ⟨.inr new, fun marked => fresh (.inr marked)⟩
        · rintro (old | ⟨rfl | new, fresh⟩)
          · exact .inl (.inr old)
          · exact .inl (.inl rfl)
          · by_cases same : node = target
            · exact .inl (.inl same)
            · exact .inr ⟨new, fun marked => fresh (marked.resolve_left same)⟩
      · have work := after.work
        rw [List.length_cons] at work
        omega

/-- Pushing the nodes of two lists. -/
theorem pushUnmarked_append (marked : BitSet) (stack targets others : List Nat) :
    pushUnmarked marked stack (targets ++ others) =
      pushUnmarked (pushUnmarked marked stack targets).1 (pushUnmarked marked stack targets).2
        others := by
  induction targets generalizing marked stack with
  | nil => rfl
  | cons target targets targetsIH =>
    rw [List.cons_append, pushUnmarked, pushUnmarked]
    split
    · exact targetsIH marked stack
    · exact targetsIH _ _

/-- The successors that a node takes come to lie on top of the stack, in their order. -/
theorem snd_pushUnmarked (graph : Digraph) {marked : BitSet} (fits : marked.Fits)
    (capacity : marked.capacity = graph.order) (stack : List Nat) {targets : List Nat}
    (below : ∀ target ∈ targets, target < graph.order) :
    (pushUnmarked marked stack targets.reverse).2 =
      targets.dedup.filter (· ∈ graph.unmarked marked) ++ stack := by
  -- The first of the targets is pushed last, when the others have been marked.
  induction targets with
  | nil => rfl
  | cons target rest restIH =>
    rw [List.forall_mem_cons] at below
    have after := graph.pushed fits capacity stack rest.reverse fun other member =>
      below.2 other (List.mem_reverse.1 member)
    have marked_iff := after.mem_marked target
    rw [List.mem_reverse] at marked_iff
    rw [List.reverse_cons, pushUnmarked_append, restIH below.2, pushUnmarked, pushUnmarked,
      pushUnmarked]
    by_cases inRest : target ∈ rest
    · rw [if_pos (BitSet.contains_iff.2 (marked_iff.2 (.inr inRest))), List.dedup_cons_of_mem inRest]
    · rw [List.dedup_cons_of_notMem inRest]
      by_cases seen : target ∈ marked
      · rw [if_pos (BitSet.contains_iff.2 (marked_iff.2 (.inl seen))),
          List.filter_cons_of_neg (by simp [seen])]
      · have isOpen : target ∉ (pushUnmarked marked stack rest.reverse).1 := by
          rw [marked_iff]
          exact not_or.2 ⟨seen, inRest⟩
        rw [if_neg fun held => isOpen (BitSet.contains_iff.1 held),
          List.filter_cons_of_pos (by simp [below.1, seen])]
        rfl

/-- With enough budget, a stack lists what is found from it when nodes are taken early. -/
theorem discoverFrom_eq {graph : Digraph} {budget : Nat} {marked : BitSet} {stack : List Nat}
    (fits : marked.Fits) (capacity : marked.capacity = graph.order)
    (onStack : ∀ node ∈ stack, node ∈ marked)
    (enough : stack.length + graph.openWeight (fun _ => 1) marked ≤ budget) :
    graph.discoverFrom budget marked stack =
      (graph.discover (graph.unmarked marked) stack).preorder := by
  induction budget generalizing marked stack with
  | zero =>
    obtain rfl : stack = [] := List.length_eq_zero_iff.1 (by omega)
    rw [discover_nil]
    rfl
  | succ budget budgetIH =>
    cases stack with
    | nil =>
      rw [discover_nil]
      rfl
    | cons top stack =>
      rw [List.forall_mem_cons] at onStack
      have below : ∀ target ∈ graph.successors top, target < graph.order :=
        fun target => successors_lt
      have after := graph.pushed fits capacity stack (graph.successors top).reverse
        fun target member => below target (List.mem_reverse.1 member)
      have stacked := graph.snd_pushUnmarked fits capacity stack below
      have work := after.work
      -- Marking the targets when they are stacked takes them away from all that is found later.
      have unmarked_eq : graph.unmarked (pushUnmarked marked stack (graph.successors top).reverse).1 =
          graph.untaken (graph.unmarked marked) top := by
        ext node
        rw [mem_unmarked, mem_untaken, mem_unmarked, after.mem_marked, List.mem_reverse,
          mem_successors, not_or, and_assoc]
        rfl
      rw [List.length_cons] at enough
      rw [discoverFrom]
      dsimp only
      rw [budgetIH after.fits (after.capacity.trans capacity) ?_ (by omega), unmarked_eq, stacked,
        ← taken, preorder_discover_append, discover_cons, Forest.preorder]
      · intro node isTaken isLeft
        exact (mem_untaken.1 isLeft).2 (mem_taken.1 isTaken).1
      · intro node member
        rw [after.mem_stack] at member
        rw [after.mem_marked]
        rcases member with old | new
        · exact .inl (onStack.2 node old)
        · exact .inr new.1

/-- The discovery order is the pre-order of the search that takes nodes before it visits them. -/
theorem discoveryOrder_eq {graph : Digraph} {start : Nat} (below : start < graph.order) :
    graph.discoveryOrder start =
      (graph.discover ((Finset.range graph.order).erase start) [start]).preorder := by
  have fits := BitSet.fits_empty graph.order
  have weight := openWeight_insert (fun _ => 1) fits rfl below (BitSet.not_mem_empty _ _)
  have total := graph.openWeight_empty fun _ => 1
  rw [← Finset.card_eq_sum_ones, Finset.card_range] at total
  have listed := @discoverFrom_eq graph graph.order _ [start] (fits.insert start)
    (BitSet.capacity_insert ..)
    (fun node member => (fits.mem_insert below node).2 (.inl (List.mem_singleton.1 member)))
    (by rw [List.length_singleton]; omega)
  rw [discoveryOrder, if_pos below, listed, unmarked_insert fits rfl below, unmarked_empty]

/-- The discovery order lists exactly what is reached. -/
theorem mem_discoveryOrder {graph : Digraph} {start node : Nat} (below : start < graph.order) :
    node ∈ graph.discoveryOrder start ↔ Reaches graph.Edge start node := by
  rw [discoveryOrder_eq below, Forest.mem_preorder, mem_discover_start]

/-- A start that is not a node yields nothing. From a node the discovery order lists each node once
that is reached, the start first, in the pre-order of the search that takes nodes early. This is the
depth-first pre-order if the depth-first tree is straight. -/
theorem discoveryOrder_takesEarly (graph : Digraph) (start : Nat) :
    (graph.order ≤ start → graph.discoveryOrder start = []) ∧
      (start < graph.order →
        graph.discoveryOrder start =
            (graph.discover ((Finset.range graph.order).erase start) [start]).preorder ∧
          (∀ node, node ∈ graph.discoveryOrder start ↔ Reaches graph.Edge start node) ∧
          (graph.discoveryOrder start).Nodup ∧ (graph.discoveryOrder start).head? = some start ∧
          (graph.Straight (graph.depthFirst start) →
            graph.discoveryOrder start = (graph.depthFirst start).preorder)) := by
  refine ⟨fun outside => if_neg (Nat.not_lt.2 outside), fun below => ?_⟩
  have listed := discoveryOrder_eq below
  refine ⟨listed, fun node => mem_discoveryOrder below, ?_, ?_, fun straight => ?_⟩
  · rw [listed]
    refine nodup_preorder_discover (List.nodup_singleton start) fun node isStart => ?_
    rw [List.mem_singleton.1 isStart]
    exact Finset.notMem_erase _ _
  · rw [listed, discover_cons]
    rfl
  · rw [listed, discover_depthFirst below straight]

/-- A node with two successors, of which the first leads on to a node that leads back. -/
def branching : Digraph := .ofEdges 4 [(0, 1), (0, 2), (1, 3), (3, 0)]

/-- The branching has no short cut, so its discovery order is the depth-first pre-order. -/
theorem discoveryOrder_takesEarly_branching :
    branching.order ≤ 4 ∧ branching.discoveryOrder 4 = [] ∧ 0 < branching.order ∧
      branching.Straight (branching.depthFirst 0) ∧
      branching.discoveryOrder 0 = (branching.depthFirst 0).preorder ∧
      (branching.depthFirst 0).preorder = [0, 1, 3, 2] := by
  have tree : branching.depthFirst 0 =
      .cons 0 (.cons 1 (.cons 3 .nil .nil) (.cons 2 .nil .nil)) .nil := by
    simp [depthFirst, search, branching, ofEdges, successors, Forest.preorder, Forest.nodes]
  have straight : branching.Straight (branching.depthFirst 0) := by
    rw [tree]
    have two : branching.Straight (.cons 2 .nil .nil) := .cons (by decide) (by decide) .nil .nil
    have three : branching.Straight (.cons 3 .nil .nil) := .cons (by decide) (by decide) .nil .nil
    exact .cons (by decide) (by decide) (.cons (by decide) (by decide) three two) .nil
  have outside := (discoveryOrder_takesEarly branching 4).1
  refine ⟨by decide, outside (by decide), by decide, straight, ?_, by rw [tree]; rfl⟩
  exact ((discoveryOrder_takesEarly branching 0).2 (by decide)).2.2.2.2 straight

/-- A node with three successors, of which the first leads to the third. -/
def fork : Digraph := .ofEdges 4 [(0, 1), (0, 2), (0, 3), (1, 3)]

/-- The discovery order is not the depth-first pre-order: in the fork the third successor is taken by
the start, and so it comes behind the second one although the first one leads to it. -/
theorem not_discoveryOrder_preorder : ¬∀ (graph : Digraph) (start : Nat),
    graph.discoveryOrder start = (graph.depthFirst start).preorder := by
  intro same
  have searched : (fork.depthFirst 0).preorder = [0, 1, 3, 2] := by
    simp [depthFirst, search, fork, ofEdges, successors, Forest.preorder, Forest.nodes]
  have listed : fork.discoveryOrder 0 = [0, 1, 2, 3] := by decide
  have orders := same fork 0
  rw [searched, listed] at orders
  exact absurd orders (by decide)

/-- Only nodes are listed. -/
theorem lt_of_mem_discoveryOrder {graph : Digraph} {start node : Nat}
    (listed : node ∈ graph.discoveryOrder start) : node < graph.order := by
  by_cases below : start < graph.order
  · exact lt_of_reaches below ((mem_discoveryOrder below).1 listed)
  · rw [discoveryOrder, if_neg below] at listed
    simp at listed

@[simp] theorem capacity_reachable (graph : Digraph) (start : Nat) :
    (graph.reachable start).capacity = graph.order := by
  rw [reachable, BitSet.capacity_insertAll, BitSet.capacity_empty]

/-- The set of reachable nodes fits the number of nodes. -/
theorem fits_reachable (graph : Digraph) (start : Nat) : (graph.reachable start).Fits :=
  (BitSet.fits_empty _).insertAll _

/-- The set of reachable nodes holds exactly what is reached. -/
theorem mem_reachable {graph : Digraph} {start node : Nat} (below : start < graph.order) :
    node ∈ graph.reachable start ↔ Reaches graph.Edge start node := by
  rw [reachable, (BitSet.fits_empty _).mem_insertAll fun _ => lt_of_mem_discoveryOrder,
    mem_discoveryOrder below]
  simp

/-! ## Post-order -/

/-- What pending visits list when each node is searched as it is entered. -/
def unwind (graph : Digraph) (unseen : Finset Nat) : List Visit → List Nat
  | [] => []
  | .leave node :: pending => node :: unwind graph unseen pending
  | .enter node :: pending =>
    (graph.search unseen [node]).postorder ++
      unwind graph (unseen \ (graph.search unseen [node]).nodes) pending

section Unwind

variable {graph : Digraph} {unseen : Finset Nat} {node : Nat}

/-- A node that has been seen lists nothing. -/
theorem unwind_enter_of_notMem (isSeen : node ∉ unseen) (pending : List Visit) :
    graph.unwind unseen (.enter node :: pending) = graph.unwind unseen pending := by
  rw [unwind, search_cons_of_notMem isSeen, search_nil]
  show graph.unwind (unseen \ ∅) pending = _
  rw [Finset.sdiff_empty]

/-- Another node is listed behind what the search of its successors finds. -/
theorem unwind_enter_of_mem (isUnseen : node ∈ unseen) (pending : List Visit) :
    graph.unwind unseen (.enter node :: pending) =
      (graph.search (unseen.erase node) (graph.successors node)).postorder ++
        node :: graph.unwind (unseen.erase node \
          (graph.search (unseen.erase node) (graph.successors node)).nodes) pending := by
  rw [unwind, search_cons_of_mem isUnseen, search_nil, Forest.postorder, Forest.postorder,
    List.append_assoc, List.singleton_append]
  congr 3
  ext other
  simp only [Finset.mem_sdiff, Finset.mem_erase, Forest.mem_nodes, Forest.mem_cons,
    Forest.notMem_nil]
  tauto

/-- Nodes that are entered one after another list what their search finds. -/
theorem unwind_enters (graph : Digraph) (unseen : Finset Nat) (nodes : List Nat)
    (pending : List Visit) :
    graph.unwind unseen (nodes.map .enter ++ pending) =
      (graph.search unseen nodes).postorder ++
        graph.unwind (unseen \ (graph.search unseen nodes).nodes) pending := by
  induction nodes generalizing unseen with
  | nil =>
    rw [search_nil]
    show graph.unwind unseen pending = graph.unwind (unseen \ ∅) pending
    rw [Finset.sdiff_empty]
  | cons node later laterIH =>
    rw [List.map_cons, List.cons_append]
    by_cases isUnseen : node ∈ unseen
    · rw [unwind_enter_of_mem isUnseen, laterIH, search_cons_of_mem isUnseen, Forest.postorder,
        List.append_assoc, List.cons_append]
      congr 4
      ext other
      simp only [Finset.mem_sdiff, Finset.mem_erase, Forest.mem_nodes, Forest.mem_cons]
      tauto
    · rw [unwind_enter_of_notMem isUnseen, laterIH, search_cons_of_notMem isUnseen]

end Unwind

/-- With enough budget, pending visits list what they do when each node is searched recursively. -/
theorem postorderFrom_eq {graph : Digraph} {budget : Nat} {visited : BitSet} {pending : List Visit}
    (fits : visited.Fits) (capacity : visited.capacity = graph.order)
    (below : ∀ node, .enter node ∈ pending → node < graph.order)
    (enough : pending.length +
      graph.openWeight (fun node => (graph.successors node).length + 1) visited ≤ budget) :
    graph.postorderFrom budget visited pending = graph.unwind (graph.unmarked visited) pending := by
  induction budget generalizing visited pending with
  | zero =>
    obtain rfl : pending = [] := List.length_eq_zero_iff.1 (by omega)
    rfl
  | succ budget budgetIH =>
    match pending with
    | [] => rfl
    | .leave node :: pending =>
      rw [List.length_cons] at enough
      rw [postorderFrom, unwind, budgetIH fits capacity
        (fun other member => below other (List.mem_cons_of_mem _ member)) (by omega)]
    | .enter node :: pending =>
      have nodeBelow := below node (List.mem_cons_self ..)
      have restBelow : ∀ other, .enter other ∈ pending → other < graph.order :=
        fun other member => below other (List.mem_cons_of_mem _ member)
      rw [List.length_cons] at enough
      rw [postorderFrom]
      by_cases seen : node ∈ visited
      · rw [if_pos (BitSet.contains_iff.2 seen), budgetIH fits capacity restBelow (by omega),
          unwind_enter_of_notMem (by simp [seen])]
      · have weight := openWeight_insert (fun node => (graph.successors node).length + 1) fits
          capacity nodeBelow seen
        have fewer := List.length_filter_le (fun target => !(visited.insert node).contains target)
          (graph.successors node)
        rw [if_neg (fun held => seen (BitSet.contains_iff.1 held)),
          budgetIH (fits.insert node) ((BitSet.capacity_insert ..).trans capacity) ?below ?enough,
          unwind_enter_of_mem (mem_unmarked.2 ⟨nodeBelow, seen⟩),
          ← unmarked_insert fits capacity nodeBelow, unwind_enters, search_filter, unwind]
        case below =>
          intro other member
          rcases List.mem_append.1 member with isTarget | later
          · obtain ⟨target, kept, same⟩ := List.mem_map.1 isTarget
            cases same
            exact successors_lt (List.mem_filter.1 kept).1
          · exact restBelow other ((List.mem_cons.1 later).resolve_left Visit.noConfusion)
        case enough =>
          rw [List.length_append, List.length_map, List.length_cons]
          omega
        -- What has not been visited is not left out of the successors.
        intro target isOpen
        rw [Bool.not_eq_true', Bool.eq_false_iff]
        exact (mem_unmarked.1 isOpen).2

/-- The post-order is that of the depth-first tree. -/
theorem postorder_eq {graph : Digraph} {start : Nat} (below : start < graph.order) :
    graph.postorder start = (graph.depthFirst start).postorder := by
  have total := graph.openWeight_empty fun node => (graph.successors node).length + 1
  rw [Finset.sum_add_distrib, sum_length_successors, ← Finset.card_eq_sum_ones,
    Finset.card_range] at total
  have unwound := @postorderFrom_eq graph (graph.order + graph.edges.length + 1) _ [.enter start]
    (BitSet.fits_empty graph.order) rfl (by simpa using below) (by rw [List.length_singleton]; omega)
  rw [postorder, if_pos below, unwound, unmarked_empty, unwind, unwind, List.append_nil, depthFirst]

/-- The post-order lists exactly what is reached. -/
theorem mem_postorder {graph : Digraph} {start node : Nat} (below : start < graph.order) :
    node ∈ graph.postorder start ↔ Reaches graph.Edge start node := by
  rw [postorder_eq below, Forest.mem_postorder, mem_depthFirst below]

/-- The post-order is that of the depth-first tree, whose root is the start. It lists each node once
that is reached, the start last. An edge between its nodes leads to a node that comes earlier, or to an
ancestor of its source, or to the source itself. -/
theorem postorder_depthFirst {graph : Digraph} {start : Nat} (below : start < graph.order) :
    graph.postorder start = (graph.depthFirst start).postorder ∧
      (graph.depthFirst start).roots = [start] ∧
      (∀ node, node ∈ graph.postorder start ↔ Reaches graph.Edge start node) ∧
      (graph.postorder start).Nodup ∧ (graph.postorder start).getLast? = some start ∧
      ∀ source ∈ graph.postorder start, ∀ target, graph.Edge source target →
        [target, source].Sublist (graph.postorder start) ∨
          (graph.depthFirst start).Above target source := by
  have listed := postorder_eq below
  have tree := depthFirst_eq below
  refine ⟨listed, by rw [tree]; rfl, fun node => mem_postorder below, ?_, ?_, ?_⟩
  · rw [listed, (Forest.postorder_perm _).nodup_iff]
    exact nodup_preorder_search
  · rw [listed, tree, Forest.postorder, Forest.postorder, List.getLast?_concat]
  · rw [listed]
    intro source isListed target edge
    have isUnseen := Finset.mem_range.2 edge.target_lt
    exact precedes_or_above_search (Forest.mem_postorder.1 isListed) edge isUnseen

/-- A loop in which two nodes lead to a third, with a doubled edge, an edge from a node to itself and a
node that is not reached. -/
def crossing : Digraph :=
  .ofEdges 5 [(0, 1), (0, 2), (0, 2), (1, 3), (3, 3), (2, 3), (3, 0), (4, 0)]

/-- In the crossing the third node precedes both that lead to it, and the start is above it. -/
theorem postorder_depthFirst_crossing :
    0 < crossing.order ∧ (crossing.depthFirst 0).postorder = [3, 1, 2, 0] ∧
      Reaches crossing.Edge 0 3 ∧ ¬Reaches crossing.Edge 0 4 ∧
      (crossing.depthFirst 0).Above 0 3 ∧ (crossing.depthFirst 0).Above 3 3 := by
  have below : 0 < crossing.order := by decide
  have order : crossing.postorder 0 = [3, 1, 2, 0] := by decide
  obtain ⟨listed, -, reached, -, -, leads⟩ := postorder_depthFirst below
  rw [order] at listed reached leads
  have up := leads 3 (by decide)
  refine ⟨below, listed.symm, (reached 3).1 (by decide), (reached 4).not.1 (by decide), ?_, ?_⟩
  · exact (up 0 (by decide)).resolve_left (by decide)
  · exact (up 3 (by decide)).resolve_left (by decide)

/-- Reading the post-order backwards lists the same nodes. -/
theorem mem_reversePostorder {graph : Digraph} {start node : Nat} (below : start < graph.order) :
    node ∈ graph.reversePostorder start ↔ Reaches graph.Edge start node := by
  rw [reversePostorder, List.mem_reverse, mem_postorder below]

end Digraph

end Midend
