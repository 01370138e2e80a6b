import Mathlib.Data.List.Dedup
import Midend.Proofs.Digraph.DepthFirst

/-! # Searches that take nodes early

A search may take all successors of a node that are still free before it visits the first of them
(`Digraph.discover`). It finds what a depth-first search finds (`mem_discover_start`), but it may come
to another order, since a node that has been taken waits for its turn when a sister leads to it. In a
straight tree, where no edge is a short cut past a child, both searches find the same tree
(`discover_depthFirst`). -/

namespace Midend

namespace Digraph

variable {graph : Digraph} {unseen free : Finset Nat} {nodes : List Nat} {node start : Nat}

/-! ## Taking nodes before they are visited -/

/-- The successors of a node that are free to be taken. Where edges are doubled the last one counts. -/
def taken (graph : Digraph) (free : Finset Nat) (node : Nat) : List Nat :=
  (graph.successors node).dedup.filter (· ∈ free)

@[simp] theorem mem_taken {target : Nat} :
    target ∈ graph.taken free node ↔ graph.Edge node target ∧ target ∈ free := by
  rw [taken, List.mem_filter, List.mem_dedup, mem_successors, decide_eq_true_iff]
  rfl

/-- No node is taken twice. -/
theorem nodup_taken (free : Finset Nat) : (graph.taken free node).Nodup :=
  (List.nodup_dedup _).filter _

/-- What is still free when a node has taken its successors. -/
def untaken (graph : Digraph) (free : Finset Nat) (node : Nat) : Finset Nat :=
  free \ (graph.taken free node).toFinset

@[simp] theorem mem_untaken {target : Nat} :
    target ∈ graph.untaken free node ↔ target ∈ free ∧ ¬graph.Edge node target := by
  rw [untaken, Finset.mem_sdiff, List.mem_toFinset, mem_taken]
  tauto

/-- Every node is taken once, or still free. -/
theorem card_untaken (free : Finset Nat) :
    (graph.untaken free node).card + (graph.taken free node).length = free.card := by
  have subset : (graph.taken free node).toFinset ⊆ free := by
    intro target isTaken
    exact (mem_taken.1 (List.mem_toFinset.1 isTaken)).2
  rw [← List.toFinset_card_of_nodup (nodup_taken free)]
  exact Finset.card_sdiff_add_card_eq_card subset

/-- Visits the nodes of a list, which have been taken, one after another. A node takes all of its
successors that are still free; these are visited next, and then the rest of the list. -/
def discover (graph : Digraph) (free : Finset Nat) : List Nat → Forest
  | [] => .nil
  | node :: later =>
    let children := discover graph (graph.untaken free node) (graph.taken free node)
    .cons node children (discover graph (graph.untaken free node \ children.nodes) later)
termination_by nodes => free.card + nodes.length
decreasing_by
  · rw [card_untaken free, List.length_cons]
    omega
  · exact Nat.add_lt_add_of_le_of_lt
      (Finset.card_le_card (Finset.sdiff_subset.trans Finset.sdiff_subset)) (Nat.lt_succ_self _)

@[simp] theorem discover_nil : graph.discover free [] = .nil := by
  rw [discover]

/-- A node of the list becomes a root, and what it takes is searched next. -/
theorem discover_cons (node : Nat) (later : List Nat) :
    graph.discover free (node :: later) =
      .cons node (graph.discover (graph.untaken free node) (graph.taken free node))
        (graph.discover (graph.untaken free node \
          (graph.discover (graph.untaken free node) (graph.taken free node)).nodes) later) := by
  rw [discover]

/-- Only nodes are found that are in the list or free. -/
theorem mem_or_mem_of_mem_discover (found : node ∈ graph.discover free nodes) :
    node ∈ nodes ∨ node ∈ free := by
  fun_induction discover graph free nodes with
  | case1 => exact absurd found Forest.notMem_nil
  | case2 free first later children childrenIH laterIH =>
    rw [List.mem_cons]
    rcases Forest.mem_cons.1 found with isFirst | below | after
    · exact .inl (.inl isFirst)
    · rcases childrenIH below with isTaken | isLeft
      · exact .inr (mem_taken.1 isTaken).2
      · exact .inr (mem_untaken.1 isLeft).1
    · rcases laterIH after with isLater | isLeft
      · exact .inl (.inr isLater)
      · exact .inr (mem_untaken.1 (Finset.sdiff_subset isLeft)).1

/-- What is in the list is found. -/
theorem mem_discover_of_mem (member : node ∈ nodes) : node ∈ graph.discover free nodes := by
  fun_induction discover graph free nodes with
  | case1 => exact absurd member List.not_mem_nil
  | case2 free first later children childrenIH laterIH =>
    rw [Forest.mem_cons]
    exact (List.mem_cons.1 member).imp_right fun isLater => .inr (laterIH isLater)

/-- What a node leads to is found with it, if it was free. -/
theorem mem_discover_of_edge {source target : Nat} (found : source ∈ graph.discover free nodes)
    (edge : graph.Edge source target) (isFree : target ∈ free) :
    target ∈ graph.discover free nodes := by
  fun_induction discover graph free nodes with
  | case1 => exact absurd found Forest.notMem_nil
  | case2 free first later children childrenIH laterIH =>
    rw [Forest.mem_cons]
    by_cases isTaken : graph.Edge first target
    · exact .inr (.inl (mem_discover_of_mem (mem_taken.2 ⟨isTaken, isFree⟩)))
    have isLeft := mem_untaken.2 ⟨isFree, isTaken⟩
    rcases Forest.mem_cons.1 found with rfl | below | after
    · exact absurd edge isTaken
    · exact .inr (.inl (childrenIH below isLeft))
    · by_cases inChildren : target ∈ children
      · exact .inr (.inl inChildren)
      · refine .inr (.inr (laterIH after (Finset.mem_sdiff.2 ⟨isLeft, ?_⟩)))
        exact fun member => inChildren (Forest.mem_nodes.1 member)

/-- What is found is reached from the list. -/
theorem reaches_of_mem_discover (found : node ∈ graph.discover free nodes) :
    ∃ first ∈ nodes, Reaches graph.Edge first node := by
  fun_induction discover graph free nodes with
  | case1 => exact absurd found Forest.notMem_nil
  | case2 free first later children childrenIH laterIH =>
    rcases Forest.mem_cons.1 found with rfl | below | after
    · exact ⟨node, List.mem_cons_self .., .refl _ _⟩
    · obtain ⟨next, isNext, _, path⟩ := childrenIH below
      exact ⟨first, List.mem_cons_self .., _, path.prepend (mem_taken.1 isNext).1⟩
    · obtain ⟨next, isNext, reached⟩ := laterIH after
      exact ⟨next, List.mem_cons_of_mem _ isNext, reached⟩

/-- No node is found twice, if none is listed twice and none of them is free. -/
theorem nodup_preorder_discover (nodup : nodes.Nodup) (apart : ∀ node ∈ nodes, node ∉ free) :
    (graph.discover free nodes).preorder.Nodup := by
  fun_induction discover graph free nodes with
  | case1 => exact List.nodup_nil
  | case2 free first later children childrenIH laterIH =>
    rw [List.nodup_cons] at nodup
    rw [List.forall_mem_cons] at apart
    -- What is found below the first node was free, so it is neither that node nor in the list.
    have below : ∀ node ∈ children, node ∈ free := by
      intro node inChildren
      rcases mem_or_mem_of_mem_discover inChildren with isTaken | isLeft
      · exact (mem_taken.1 isTaken).2
      · exact (mem_untaken.1 isLeft).1
    rw [Forest.preorder, List.nodup_cons, List.mem_append, not_or]
    refine ⟨⟨fun again => apart.1 (below _ again), fun again => ?_⟩,
      List.nodup_append'.2 ⟨childrenIH (nodup_taken free) ?_, laterIH nodup.2 ?_, ?_⟩⟩
    · rcases mem_or_mem_of_mem_discover again with isLater | isLeft
      · exact nodup.1 isLater
      · exact apart.1 (mem_untaken.1 (Finset.sdiff_subset isLeft)).1
    · intro node isTaken isLeft
      exact (mem_untaken.1 isLeft).2 (mem_taken.1 isTaken).1
    · intro node isLater isLeft
      exact apart.2 node isLater (mem_untaken.1 (Finset.sdiff_subset isLeft)).1
    · intro node inChildren after
      rcases mem_or_mem_of_mem_discover after with isLater | isLeft
      · exact apart.2 node isLater (below node inChildren)
      · exact (Finset.mem_sdiff.1 isLeft).2 (Forest.mem_nodes.2 inChildren)

/-- A list that goes on is searched in two parts. -/
theorem preorder_discover_append (apart : ∀ node ∈ nodes, node ∉ free) (later : List Nat) :
    (graph.discover free (nodes ++ later)).preorder =
      (graph.discover free nodes).preorder ++
        (graph.discover (free \ (graph.discover free nodes).nodes) later).preorder := by
  induction nodes generalizing free with
  | nil =>
    rw [discover_nil]
    show _ = (graph.discover (free \ ∅) later).preorder
    rw [Finset.sdiff_empty, List.nil_append]
  | cons first nodes nodesIH =>
    rw [List.forall_mem_cons] at apart
    rw [List.cons_append, discover_cons, discover_cons, Forest.preorder, Forest.preorder, nodesIH,
      List.cons_append, List.append_assoc]
    · congr 5
      ext other
      -- What the first node takes is found below it.
      have below : other ∈ free → graph.Edge first other →
          other ∈ graph.discover (graph.untaken free first) (graph.taken free first) :=
        fun isFree edge => mem_discover_of_mem (mem_taken.2 ⟨edge, isFree⟩)
      have notFirst : other ∈ free → other ≠ first := fun isFree same => apart.1 (same ▸ isFree)
      simp only [Finset.mem_sdiff, Forest.mem_nodes, Forest.mem_cons, mem_untaken]
      tauto
    · intro node isLater isLeft
      exact apart.2 node isLater (mem_untaken.1 (Finset.sdiff_subset isLeft)).1

/-- The nodes that are found from a start node are those that are reached. -/
theorem mem_discover_start :
    node ∈ graph.discover ((Finset.range graph.order).erase start) [start] ↔
      Reaches graph.Edge start node := by
  have startFound : start ∈ graph.discover ((Finset.range graph.order).erase start) [start] :=
    mem_discover_of_mem (List.mem_singleton_self start)
  constructor
  · intro found
    obtain ⟨first, isFirst, reached⟩ := reaches_of_mem_discover found
    rwa [List.mem_singleton.1 isFirst] at reached
  · refine holds_of_reaches startFound fun source target found edge => ?_
    by_cases isStart : target = start
    · rwa [isStart]
    · refine mem_discover_of_edge found edge (Finset.mem_erase.2 ⟨isStart, ?_⟩)
      exact Finset.mem_range.2 edge.target_lt

/-! ## Forests in which both searches agree -/

/-- Edges lead from a node of a forest to a child of it or to nodes that are not below it, and none
of them is doubled. -/
inductive Straight (graph : Digraph) : Forest → Prop
  /-- The forest without trees. -/
  | nil : Straight graph .nil
  /-- A tree whose root has edges only to children, as far as they lead into the tree. -/
  | cons {root : Nat} {children rest : Forest} : (graph.successors root).Nodup →
      (∀ target ∈ graph.successors root, target ∈ children → target ∈ children.roots) →
      Straight graph children → Straight graph rest → Straight graph (.cons root children rest)

/-- The roots are found in the order of the list. -/
theorem roots_search_sublist : (graph.search unseen nodes).roots.Sublist nodes := by
  fun_induction search graph unseen nodes with
  | case1 => exact .slnil
  | case2 unseen first later isUnseen children _ laterIH => exact laterIH.cons_cons first
  | case3 unseen first later isSeen laterIH => exact laterIH.cons first

/-- A part of a list without repetitions is what is left when the other elements are dropped. -/
theorem filter_mem_of_sublist {part all : List Nat} (nodup : all.Nodup) (sublist : part.Sublist all) :
    all.filter (· ∈ part) = part := by
  have kept : part.filter (· ∈ part) = part := List.filter_eq_self.2 (by simp)
  have more := sublist.filter (· ∈ part)
  have only : all.filter (· ∈ part) ⊆ part := fun node member => by
    simpa using (List.mem_filter.1 member).2
  rw [kept] at more
  exact (more.eq_of_length_le ((nodup.filter _).subperm only).length_le).symm

/-- In a straight forest a node takes its children, if nothing but what is below it is free. -/
theorem taken_eq_roots (nodup : (graph.successors node).Nodup)
    (direct : ∀ target ∈ graph.successors node,
      target ∈ graph.search unseen (graph.successors node) →
      target ∈ (graph.search unseen (graph.successors node)).roots)
    (isFree : ∀ root ∈ (graph.search unseen (graph.successors node)).roots, root ∈ free)
    (isUnseen : ∀ target ∈ free, target ∈ unseen) :
    graph.taken free node = (graph.search unseen (graph.successors node)).roots := by
  rw [taken, nodup.dedup]
  refine Eq.trans ?_ (filter_mem_of_sublist nodup roots_search_sublist)
  refine List.filter_congr fun target isTarget => decide_eq_decide.2 ⟨fun held => ?_, isFree target⟩
  exact direct target isTarget (mem_search_of_mem isTarget (isUnseen target held))

/-- Where no edge is a short cut it makes no difference when nodes are taken: the roots of a
depth-first forest lead to that forest, if what is below them is free. -/
theorem discover_roots (straight : graph.Straight (graph.search unseen nodes)) :
    ∀ free : Finset Nat,
      (∀ node ∈ graph.search unseen nodes,
        node ∉ (graph.search unseen nodes).roots → node ∈ free) →
      (∀ node ∈ free, node ∈ unseen ∧ node ∉ (graph.search unseen nodes).roots) →
      graph.discover free (graph.search unseen nodes).roots = graph.search unseen nodes := by
  fun_induction search graph unseen nodes with
  | case1 => exact fun _ _ _ => discover_nil
  | case2 unseen first later firstUnseen children childrenIH laterIH =>
    intro free isFree isUnseen
    simp only [Forest.mem_cons, Forest.roots, List.mem_cons, not_or] at isFree isUnseen
    cases straight with | cons nodup direct childrenStraight laterStraight =>
    -- What is below the first node is neither that node nor found later, so it is free.
    have below : ∀ node ∈ children, node ∈ free := by
      intro node inChildren
      refine isFree node (.inr (.inl inChildren)) ⟨fun isFirst => ?_, fun isRoot => ?_⟩
      · exact Finset.notMem_erase _ _ (isFirst ▸ mem_of_mem_search inChildren)
      · have isLater := mem_of_mem_search (Forest.mem_of_mem_roots isRoot)
        exact (Finset.mem_sdiff.1 isLater).2 (Forest.mem_nodes.2 inChildren)
    have takesChildren : graph.taken free first = children.roots :=
      taken_eq_roots nodup direct (fun root isRoot => below root (Forest.mem_of_mem_roots isRoot))
        fun target held => Finset.mem_erase.2 ⟨(isUnseen target held).2.1, (isUnseen target held).1⟩
    have notRoot : ∀ node ∈ free, (node ∉ children.roots ↔ ¬graph.Edge first node) := by
      intro node held
      rw [← takesChildren, mem_taken, and_iff_left held]
    have childrenSame : graph.discover (graph.untaken free first) children.roots = children := by
      refine childrenIH childrenStraight _ (fun node inChildren apart => ?_) fun node isLeft => ?_
      · have held := below node inChildren
        exact mem_untaken.2 ⟨held, (notRoot node held).1 apart⟩
      · obtain ⟨held, apart⟩ := mem_untaken.1 isLeft
        obtain ⟨isOpen, notFirst, -⟩ := isUnseen node held
        exact ⟨Finset.mem_erase.2 ⟨notFirst, isOpen⟩, (notRoot node held).2 apart⟩
    rw [Forest.roots, discover_cons, takesChildren, childrenSame, laterIH laterStraight]
    · intro node isLater apart
      have isOpen := mem_of_mem_search isLater
      rw [Finset.mem_sdiff, Finset.mem_erase, Forest.mem_nodes] at isOpen
      have held := isFree node (.inr (.inr isLater)) ⟨isOpen.1.1, apart⟩
      refine Finset.mem_sdiff.2 ⟨mem_untaken.2 ⟨held, (notRoot node held).1 fun isRoot => ?_⟩, ?_⟩
      · exact isOpen.2 (Forest.mem_of_mem_roots isRoot)
      · exact fun member => isOpen.2 (Forest.mem_nodes.1 member)
    · intro node isLeft
      obtain ⟨isLeft, apart⟩ := Finset.mem_sdiff.1 isLeft
      obtain ⟨isOpen, notFirst, notLater⟩ := isUnseen node (mem_untaken.1 isLeft).1
      exact ⟨Finset.mem_sdiff.2 ⟨Finset.mem_erase.2 ⟨notFirst, isOpen⟩, apart⟩, notLater⟩
  | case3 unseen first later isSeen laterIH => exact laterIH straight

/-- A straight depth-first tree is also what is found when nodes are taken early. -/
theorem discover_depthFirst (below : start < graph.order)
    (straight : graph.Straight (graph.depthFirst start)) :
    graph.discover ((Finset.range graph.order).erase start) [start] = graph.depthFirst start := by
  have isRoot : (graph.depthFirst start).roots = [start] := by
    rw [depthFirst_eq below]
    rfl
  have same := discover_roots straight ((Finset.range graph.order).erase start)
  rw [← depthFirst, isRoot] at same
  refine same (fun node found apart => ?_) fun node isFree => ?_
  · exact Finset.mem_erase.2 ⟨fun isStart => apart (List.mem_singleton.2 isStart),
      mem_of_mem_search found⟩
  · obtain ⟨apart, isNode⟩ := Finset.mem_erase.1 isFree
    exact ⟨isNode, fun isStart => apart (List.mem_singleton.1 isStart)⟩

end Digraph

end Midend
