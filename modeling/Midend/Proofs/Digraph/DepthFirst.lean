import Mathlib.Data.Finset.Card
import Mathlib.Data.Finset.SDiff
import Mathlib.Data.List.Nodup
import Mathlib.Data.List.Perm.Basic
import Midend.Digraph.Basic
import Midend.Proofs.Path

/-! # Depth-first search

The depth-first search as a recursive function: `Digraph.search` enters the nodes of a list one after
another, skips those that have been seen, and searches the successors of a node before it goes on with
the list. What it finds is an ordered forest. The two depth-first orders are the pre-order and the
post-order of this forest.

A search finds what it is given, each node once (`nodup_preorder_search`), and what edges lead to from
there (`mem_depthFirst`). Edges lead back in the post-order or up in the forest
(`precedes_or_above_search`). -/

namespace Midend

/-! ## Ordered forests -/

/-- An ordered forest: the root of its first tree, what is below that root, and the trees after the
first one. -/
inductive Forest where
  /-- No tree. -/
  | nil
  /-- A tree in front of others. -/
  | cons (root : Nat) (children rest : Forest)
  deriving DecidableEq, Repr

namespace Forest

/-- The roots of the trees. -/
def roots : Forest → List Nat
  | nil => []
  | cons root _ rest => root :: rest.roots

/-- Every root in front of what is below it. -/
def preorder : Forest → List Nat
  | nil => []
  | cons root children rest => root :: (children.preorder ++ rest.preorder)

/-- Every root behind what is below it. -/
def postorder : Forest → List Nat
  | nil => []
  | cons root children rest => children.postorder ++ root :: rest.postorder

instance : Membership Nat Forest := ⟨fun forest node => node ∈ forest.preorder⟩

instance (node : Nat) (forest : Forest) : Decidable (node ∈ forest) :=
  inferInstanceAs (Decidable (node ∈ forest.preorder))

/-- The nodes of a forest. -/
def nodes (forest : Forest) : Finset Nat := forest.preorder.toFinset

/-- A node of a forest is an ancestor of another one, or that node itself. -/
inductive Above : Forest → Nat → Nat → Prop
  /-- A root is above itself. -/
  | self {root : Nat} {children rest : Forest} : Above (cons root children rest) root root
  /-- A root is above what is below it. -/
  | root {root lower : Nat} {children rest : Forest} :
      lower ∈ children → Above (cons root children rest) root lower
  /-- What is above in the trees below a root. -/
  | children {root upper lower : Nat} {children rest : Forest} :
      Above children upper lower → Above (cons root children rest) upper lower
  /-- What is above in the other trees. -/
  | rest {root upper lower : Nat} {children rest : Forest} :
      Above rest upper lower → Above (cons root children rest) upper lower

variable {forest children rest : Forest} {node root : Nat}

@[simp] theorem notMem_nil : node ∉ nil := List.not_mem_nil

@[simp] theorem mem_cons :
    node ∈ cons root children rest ↔ node = root ∨ node ∈ children ∨ node ∈ rest := by
  show node ∈ root :: (children.preorder ++ rest.preorder) ↔ _
  rw [List.mem_cons, List.mem_append]
  rfl

/-- The pre-order lists the nodes. -/
theorem mem_preorder : node ∈ forest.preorder ↔ node ∈ forest := Iff.rfl

@[simp] theorem mem_nodes : node ∈ forest.nodes ↔ node ∈ forest := List.mem_toFinset

/-- Roots are nodes. -/
theorem mem_of_mem_roots (isRoot : node ∈ forest.roots) : node ∈ forest := by
  induction forest with
  | nil => exact isRoot
  | cons root children rest _ restIH =>
    rw [roots, List.mem_cons] at isRoot
    exact mem_cons.2 (isRoot.imp_right fun later => .inr (restIH later))

/-- Both orders list the same nodes. -/
theorem postorder_perm (forest : Forest) : forest.postorder.Perm forest.preorder := by
  induction forest with
  | nil => exact .nil
  | cons root children rest childrenIH restIH =>
    apply List.perm_middle.trans
    exact (childrenIH.append restIH).cons root

/-- The post-order lists the nodes. -/
theorem mem_postorder : node ∈ forest.postorder ↔ node ∈ forest :=
  forest.postorder_perm.mem_iff

/-- What is above a node is in the forest. -/
theorem Above.upper_mem {upper lower : Nat} (above : forest.Above upper lower) : upper ∈ forest := by
  induction above with
  | self | root => exact mem_cons.2 (.inl rfl)
  | children _ inChildren => exact mem_cons.2 (.inr (.inl inChildren))
  | rest _ inRest => exact mem_cons.2 (.inr (.inr inRest))

end Forest

namespace Digraph

/-! ## Edges -/

/-- There is an edge from one node to another. -/
def Edge (graph : Digraph) (source target : Nat) : Prop := (source, target) ∈ graph.edges

instance (graph : Digraph) (source target : Nat) : Decidable (graph.Edge source target) :=
  inferInstanceAs (Decidable ((source, target) ∈ graph.edges))

/-- Edges lead to nodes. -/
theorem Edge.target_lt {graph : Digraph} {source target : Nat} (edge : graph.Edge source target) :
    target < graph.order := (graph.edges_lt _ edge).2

/-- Edges come from nodes. -/
theorem Edge.source_lt {graph : Digraph} {source target : Nat} (edge : graph.Edge source target) :
    source < graph.order := (graph.edges_lt _ edge).1

/-- Paths from a node stay on nodes. -/
theorem lt_of_reaches {graph : Digraph} {start node : Nat} (below : start < graph.order)
    (reached : Reaches graph.Edge start node) : node < graph.order := by
  obtain ⟨_, path⟩ := reached
  exact path.invariant (· < graph.order) below fun _ _ _ edge => edge.target_lt

/-- A set of nodes that holds the start and what edges lead to from it holds all that is reached. -/
theorem holds_of_reaches {graph : Digraph} {holds : Nat → Prop} {start node : Nat}
    (atStart : holds start) (closed : ∀ source target, holds source → graph.Edge source target →
      holds target) (reached : Reaches graph.Edge start node) : holds node := by
  obtain ⟨_, path⟩ := reached
  exact path.invariant holds atStart closed

/-! ## The search -/

/-- Searches from the nodes of a list, one after another. A node that has been seen is skipped; for
another one its successors are searched, and then what they have left unseen from the rest of the
list. -/
def search (graph : Digraph) (unseen : Finset Nat) : List Nat → Forest
  | [] => .nil
  | node :: later =>
    if node ∈ unseen then
      let children := search graph (unseen.erase node) (graph.successors node)
      .cons node children (search graph (unseen.erase node \ children.nodes) later)
    else search graph unseen later
termination_by nodes => (unseen.card, nodes.length)
decreasing_by
  · exact .left _ _ (Finset.card_erase_lt_of_mem ‹node ∈ unseen›)
  · exact .left _ _ (Nat.lt_of_le_of_lt (Finset.card_le_card Finset.sdiff_subset)
      (Finset.card_erase_lt_of_mem ‹node ∈ unseen›))
  · exact .right _ (Nat.lt_succ_self _)

/-- The depth-first tree of a start node, before which no node has been seen. -/
def depthFirst (graph : Digraph) (start : Nat) : Forest :=
  graph.search (Finset.range graph.order) [start]

variable {graph : Digraph} {unseen : Finset Nat} {nodes : List Nat} {node start : Nat}

@[simp] theorem search_nil : graph.search unseen [] = .nil := by
  rw [search]

/-- A node that has not been seen becomes a root. -/
theorem search_cons_of_mem (isUnseen : node ∈ unseen) (later : List Nat) :
    graph.search unseen (node :: later) =
      .cons node (graph.search (unseen.erase node) (graph.successors node))
        (graph.search (unseen.erase node \
          (graph.search (unseen.erase node) (graph.successors node)).nodes) later) := by
  rw [search, if_pos isUnseen]

/-- A node that has been seen is skipped. -/
theorem search_cons_of_notMem (isSeen : node ∉ unseen) (later : List Nat) :
    graph.search unseen (node :: later) = graph.search unseen later := by
  rw [search, if_neg isSeen]

/-- Nodes that have been seen may be left out of the list. -/
theorem search_filter {keep : Nat → Bool} (kept : ∀ node ∈ unseen, keep node = true) :
    graph.search unseen (nodes.filter keep) = graph.search unseen nodes := by
  -- Only the rest of the list is changed, so the induction is on the list, for all unseen nodes.
  induction nodes generalizing unseen with
  | nil => rfl
  | cons first later laterIH =>
    by_cases isUnseen : first ∈ unseen
    · rw [List.filter_cons_of_pos (kept first isUnseen), search_cons_of_mem isUnseen,
        search_cons_of_mem isUnseen, laterIH]
      intro node isLeft
      exact kept node (Finset.mem_of_mem_erase (Finset.sdiff_subset isLeft))
    · rw [search_cons_of_notMem isUnseen, ← laterIH kept, List.filter_cons]
      split
      · exact search_cons_of_notMem isUnseen _
      · rfl

/-! ## What is found -/

/-- Only nodes are found that have not been seen. -/
theorem mem_of_mem_search (found : node ∈ graph.search unseen nodes) : node ∈ unseen := by
  fun_induction search graph unseen nodes with
  | case1 => exact absurd found Forest.notMem_nil
  | case2 unseen first later isUnseen children childrenIH laterIH =>
    rcases Forest.mem_cons.1 found with rfl | below | after
    · exact isUnseen
    · exact Finset.mem_of_mem_erase (childrenIH below)
    · exact Finset.mem_of_mem_erase (Finset.sdiff_subset (laterIH after))
  | case3 unseen first later isSeen laterIH => exact laterIH found

/-- No node is found twice. -/
theorem nodup_preorder_search : (graph.search unseen nodes).preorder.Nodup := by
  fun_induction search graph unseen nodes with
  | case1 => exact List.nodup_nil
  | case2 unseen first later isUnseen children childrenIH laterIH =>
    have below : ∀ node ∈ children, node ∈ unseen.erase first := fun node => mem_of_mem_search
    rw [Forest.preorder, List.nodup_cons, List.mem_append, not_or]
    refine ⟨⟨fun again => ?_, fun again => ?_⟩, List.nodup_append'.2 ⟨childrenIH, laterIH, ?_⟩⟩
    · exact Finset.notMem_erase _ _ (below _ again)
    · exact Finset.notMem_erase _ _ (Finset.sdiff_subset (mem_of_mem_search again))
    · intro node inChildren after
      exact (Finset.mem_sdiff.1 (mem_of_mem_search after)).2 (Forest.mem_nodes.2 inChildren)
  | case3 unseen first later isSeen laterIH => exact laterIH

/-- What is in the list and has not been seen is found. -/
theorem mem_search_of_mem (member : node ∈ nodes) (isUnseen : node ∈ unseen) :
    node ∈ graph.search unseen nodes := by
  fun_induction search graph unseen nodes with
  | case1 => exact absurd member List.not_mem_nil
  | case2 unseen first later firstUnseen children _ laterIH =>
    rw [Forest.mem_cons]
    by_cases isFirst : node = first
    · exact .inl isFirst
    · by_cases below : node ∈ children
      · exact .inr (.inl below)
      · refine .inr (.inr (laterIH (List.mem_of_ne_of_mem isFirst member) ?_))
        simp [isFirst, isUnseen, below]
  | case3 unseen first later isSeen laterIH =>
    refine laterIH ((List.mem_cons.1 member).resolve_left fun isFirst => ?_) isUnseen
    exact isSeen (isFirst ▸ isUnseen)

/-- What is found is reached from the list. -/
theorem reaches_of_mem_search (found : node ∈ graph.search unseen nodes) :
    ∃ first ∈ nodes, Reaches graph.Edge first node := by
  fun_induction search graph unseen nodes with
  | case1 => exact absurd found Forest.notMem_nil
  | case2 unseen first later isUnseen children childrenIH laterIH =>
    rcases Forest.mem_cons.1 found with rfl | below | after
    · exact ⟨node, List.mem_cons_self .., .refl _ _⟩
    · obtain ⟨next, isNext, _, path⟩ := childrenIH below
      exact ⟨first, List.mem_cons_self .., _, path.prepend (mem_successors.1 isNext)⟩
    · obtain ⟨next, isNext, reached⟩ := laterIH after
      exact ⟨next, List.mem_cons_of_mem _ isNext, reached⟩
  | case3 unseen first later isSeen laterIH =>
    obtain ⟨next, isNext, reached⟩ := laterIH found
    exact ⟨next, List.mem_cons_of_mem _ isNext, reached⟩

/-- An edge from a node that is found to one that had not been seen leads back in the post-order, or
up in the forest. -/
theorem precedes_or_above_search {source target : Nat} (found : source ∈ graph.search unseen nodes)
    (edge : graph.Edge source target) (isUnseen : target ∈ unseen) :
    [target, source].Sublist (graph.search unseen nodes).postorder ∨
      (graph.search unseen nodes).Above target source := by
  fun_induction search graph unseen nodes with
  | case1 => exact absurd found Forest.notMem_nil
  | case2 unseen first later _ children childrenIH laterIH =>
    rw [Forest.postorder]
    by_cases isFirst : target = first
    · subst isFirst
      rcases Forest.mem_cons.1 found with rfl | below | after
      · exact .inr .self
      · exact .inr (.root below)
      · refine .inl (List.Sublist.trans ?_ (List.sublist_append_right ..))
        simpa using Forest.mem_postorder.2 after
    have belowFirst := Finset.mem_erase.2 ⟨isFirst, isUnseen⟩
    -- A target below the first root comes before it, and before all that is found later.
    have earlier : target ∈ children → source ∉ children →
        [target, source].Sublist (children.postorder ++ first ::
          (graph.search (unseen.erase first \ children.nodes) later).postorder) := by
      intro inChildren notBelow
      have front : [target].Sublist children.postorder := by
        simpa using Forest.mem_postorder.2 inChildren
      have back : [source].Sublist (first ::
          (graph.search (unseen.erase first \ children.nodes) later).postorder) := by
        simpa [Forest.mem_postorder, notBelow] using found
      exact front.append back
    rcases Forest.mem_cons.1 found with rfl | below | after
    · refine .inl (earlier (mem_search_of_mem (mem_successors.2 edge) belowFirst) fun again => ?_)
      exact Finset.notMem_erase _ _ (mem_of_mem_search again)
    · refine (childrenIH below belowFirst).imp (fun before => ?_) .children
      exact before.trans (List.sublist_append_left ..)
    · by_cases inChildren : target ∈ children
      · refine .inl (earlier inChildren fun below => ?_)
        exact (Finset.mem_sdiff.1 (mem_of_mem_search after)).2 (Forest.mem_nodes.2 below)
      · refine (laterIH after (by simp [isFirst, isUnseen, inChildren])).imp (fun before => ?_) .rest
        exact before.trans ((List.sublist_cons_self ..).trans (List.sublist_append_right ..))
  | case3 unseen first later isSeen laterIH => exact laterIH found isUnseen

/-! ## The depth-first tree -/

/-- The depth-first tree is one tree, whose root is the start. -/
theorem depthFirst_eq (below : start < graph.order) :
    graph.depthFirst start = .cons start
      (graph.search ((Finset.range graph.order).erase start) (graph.successors start)) .nil := by
  rw [depthFirst, search_cons_of_mem (Finset.mem_range.2 below), search_nil]

/-- The depth-first tree has the nodes that are reached. -/
theorem mem_depthFirst (below : start < graph.order) :
    node ∈ graph.depthFirst start ↔ Reaches graph.Edge start node := by
  constructor
  · intro found
    obtain ⟨first, isFirst, reached⟩ := reaches_of_mem_search found
    rwa [List.mem_singleton.1 isFirst] at reached
  · refine holds_of_reaches ?_ fun source target found edge => ?_
    · exact mem_search_of_mem (List.mem_singleton_self start) (Finset.mem_range.2 below)
    · have isUnseen := Finset.mem_range.2 edge.target_lt
      rcases precedes_or_above_search found edge isUnseen with before | above
      · exact Forest.mem_postorder.1 (before.subset (List.mem_cons_self ..))
      · exact above.upper_mem

end Digraph

end Midend
