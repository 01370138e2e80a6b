import Midend.Proofs.Dominance.Exact

/-! # The dominator tree

The parent of a node, found by counting dominators, is its closest strict dominator
(`Built.parent?_eq_some_iff`). The tree names every reachable block once and under its closest strict
dominator (`Built.tree_spec`), and the frontier of a block holds the targets just beyond what it
dominates (`Built.mem_frontier`). -/

namespace Midend

namespace Dominance

/-! ## Visits of a tree -/

mutual

/-- The names of a tree in pre-order, each with the name above it. -/
def Tree.visits (parent : Option String) : Tree → List (String × Option String)
  | .node name children => (name, parent) :: visitsAll (some name) children

/-- The names of several trees under one name, each with the name above it. -/
def Tree.visitsAll (parent : Option String) : List Tree → List (String × Option String)
  | [] => []
  | tree :: rest => tree.visits parent ++ visitsAll parent rest

end

mutual

/-- The visits of a tree follow its pre-order. -/
theorem Tree.map_fst_visits (parent : Option String) :
    (tree : Tree) → (tree.visits parent).map Prod.fst = tree.preorder
  | .node name children => by
    rw [Tree.visits, Tree.preorder, List.map_cons, map_fst_visitsAll]

/-- The visits of several trees follow their pre-orders. -/
theorem Tree.map_fst_visitsAll (parent : Option String) :
    (trees : List Tree) → (Tree.visitsAll parent trees).map Prod.fst = Tree.preorderAll trees
  | [] => rfl
  | tree :: rest => by
    rw [Tree.visitsAll, Tree.preorderAll, List.map_append, map_fst_visits, map_fst_visitsAll]

end

/-- The visits of several trees are those of each. -/
theorem Tree.visitsAll_eq_flatMap (parent : Option String) (trees : List Tree) :
    Tree.visitsAll parent trees = trees.flatMap (Tree.visits parent) := by
  induction trees with
  | nil => rfl
  | cons tree rest restIH => rw [Tree.visitsAll, restIH, List.flatMap_cons]

/-- The pre-order of several trees is that of each. -/
theorem Tree.preorderAll_eq_flatMap (trees : List Tree) :
    Tree.preorderAll trees = trees.flatMap Tree.preorder := by
  induction trees with
  | nil => rfl
  | cons tree rest restIH => rw [Tree.preorderAll, restIH, List.flatMap_cons]

mutual

/-- In a tree a name is visited after the name above it. -/
theorem Tree.parent_visited {parent : Option String} {name upper : String}
    {before after : List (String × Option String)} :
    (tree : Tree) → tree.visits parent = before ++ (name, some upper) :: after →
      parent = some upper ∨ upper ∈ before.map Prod.fst
  | .node root children, split => by
    rw [Tree.visits] at split
    cases before with
    | nil =>
      have same := (List.cons.inj split).1
      exact .inl (Prod.mk.inj same).2
    | cons first before =>
      obtain ⟨rfl, rest⟩ := List.cons.inj split
      rcases parentAll_visited children rest with isRoot | earlier
      · obtain rfl := Option.some.inj isRoot
        exact .inr (List.mem_cons_self ..)
      · exact .inr (List.mem_cons_of_mem _ earlier)

/-- In several trees a name is visited after the name above it. -/
theorem Tree.parentAll_visited {parent : Option String} {name upper : String}
    {before after : List (String × Option String)} :
    (trees : List Tree) → Tree.visitsAll parent trees = before ++ (name, some upper) :: after →
      parent = some upper ∨ upper ∈ before.map Prod.fst
  | [], split => by simp [Tree.visitsAll] at split
  | tree :: rest, split => by
    rw [Tree.visitsAll] at split
    rcases List.append_eq_append_iff.1 split with
      ⟨middle, rfl, inRest⟩ | ⟨middle, inTree, atCut⟩
    · rcases parentAll_visited rest inRest with isParent | earlier
      · exact .inl isParent
      · rw [List.map_append]
        exact .inr (List.mem_append_right _ earlier)
    · cases middle with
      | nil =>
        have atStart : Tree.visitsAll parent rest = [] ++ (name, some upper) :: after := by
          simpa using atCut.symm
        rcases parentAll_visited rest atStart with isParent | impossible
        · exact .inl isParent
        · simp at impossible
      | cons first middle =>
        obtain ⟨rfl, rfl⟩ := List.cons.inj (by simpa using atCut)
        exact parent_visited tree inTree

end

namespace Built

variable {successors : SortedMap String (List String)} {entry : String} {dominance : Dominance}

/-! ## Parents -/

/-- The number of dominators of a node. -/
def depthOf (dominance : Dominance) (node : Nat) : Nat :=
  (setAt dominance.dominatorSets node).toList.length

/-- The dominators of a node, listed. -/
theorem mem_dominatorList (built : Built dominance successors entry) {upper lower : Nat}
    (below : lower < dominance.graph.order) :
    upper ∈ (setAt dominance.dominatorSets lower).toList ↔
      Dominates dominance.graph.Edge dominance.entry upper lower := by
  rw [(built.fitting.setAt below).1.mem_toList, built.exact]

/-- A node has one dominator more than its closest strict dominator: itself. -/
theorem depthOf_immediate (built : Built dominance successors entry) {upper lower : Nat}
    (immediate : Immediate dominance.graph.Edge dominance.entry upper lower) :
    depthOf dominance upper + 1 = depthOf dominance lower := by
  have upperBelow := Digraph.lt_of_reaches built.entry_lt immediate.strict.2.reaches_upper
  have lowerBelow := Digraph.lt_of_reaches built.entry_lt immediate.strict.2.reaches
  have notAbove : lower ∉ (setAt dominance.dominatorSets upper).toList := by
    rw [built.mem_dominatorList upperBelow]
    exact fun above => immediate.strict.1 (immediate.strict.2.antisymm above)
  have permuted : (lower :: (setAt dominance.dominatorSets upper).toList).Perm
      (setAt dominance.dominatorSets lower).toList := by
    rw [List.perm_ext_iff_of_nodup (List.nodup_cons.2 ⟨notAbove, BitSet.nodup_toList _⟩)
      (BitSet.nodup_toList _)]
    intro other
    rw [List.mem_cons, built.mem_dominatorList upperBelow, built.mem_dominatorList lowerBelow]
    constructor
    · rintro (rfl | above)
      · exact .refl immediate.strict.2.reaches
      · exact above.trans immediate.strict.2
    · exact immediate.eq_or_dominates
  exact permuted.length_eq

/-- A node has no more dominators than there are nodes. -/
theorem depthOf_le (built : Built dominance successors entry) {node : Nat}
    (below : node < dominance.graph.order) : depthOf dominance node ≤ dominance.graph.order := by
  have subset : (setAt dominance.dominatorSets node).toList ⊆ List.range dominance.graph.order := by
    intro upper member
    have dominates := (built.mem_dominatorList below).1 member
    exact List.mem_range.2 (Digraph.lt_of_reaches built.entry_lt dominates.reaches_upper)
  simpa [depthOf] using ((BitSet.nodup_toList _).subperm subset).length_le

/-- A node that strictly dominates another has fewer dominators than there are nodes. -/
theorem depthOf_lt (built : Built dominance successors entry) {upper lower : Nat}
    (strict : StrictlyDominates dominance.graph.Edge dominance.entry upper lower) :
    depthOf dominance upper < dominance.graph.order := by
  obtain ⟨child, isChild, _⟩ := strict.exists_child
  have childDepth := built.depthOf_immediate isChild
  have := built.depthOf_le (Digraph.lt_of_reaches built.entry_lt isChild.strict.2.reaches)
  omega

/-- A strict dominator with one dominator less than a node is its closest one. -/
theorem immediate_of_depthOf (built : Built dominance successors entry) {upper lower : Nat}
    (strict : StrictlyDominates dominance.graph.Edge dominance.entry upper lower)
    (depth : depthOf dominance upper + 1 = depthOf dominance lower) :
    Immediate dominance.graph.Edge dominance.entry upper lower := by
  obtain ⟨closest, immediate⟩ := strict.2.reaches.exists_immediate strict.ne_start
  have upperBelow := Digraph.lt_of_reaches built.entry_lt strict.2.reaches_upper
  have closestBelow := Digraph.lt_of_reaches built.entry_lt immediate.strict.2.reaches_upper
  have above := immediate.closest upper strict
  have subset : (setAt dominance.dominatorSets upper).toList ⊆
      (setAt dominance.dominatorSets closest).toList := by
    intro other member
    rw [built.mem_dominatorList upperBelow] at member
    exact (built.mem_dominatorList closestBelow).2 (member.trans above)
  -- Equally many dominators, so the closest one is among those of the other.
  have closestDepth := built.depthOf_immediate immediate
  have permuted := ((BitSet.nodup_toList _).subperm subset).perm_of_length_le (by
    simp only [depthOf] at depth closestDepth
    omega)
  have closestAbove : Dominates dominance.graph.Edge dominance.entry closest upper := by
    rw [← built.mem_dominatorList upperBelow, permuted.mem_iff,
      built.mem_dominatorList closestBelow]
    exact .refl immediate.strict.2.reaches_upper
  rwa [← closestAbove.antisymm above]

/-- The parent of a reached node other than the entry is its closest strict dominator. -/
theorem parent?_eq_some_iff (built : Built dominance successors entry) {upper lower : Nat}
    (reached : Reaches dominance.graph.Edge dominance.entry lower) :
    parent? dominance.dominatorSets lower = some upper ↔
      Immediate dominance.graph.Edge dominance.entry upper lower := by
  have below := Digraph.lt_of_reaches built.entry_lt reached
  have sound : ∀ {other : Nat}, parent? dominance.dominatorSets lower = some other →
      Immediate dominance.graph.Edge dominance.entry other lower := by
    intro other found
    have member := List.mem_of_find?_eq_some found
    have property := List.find?_some found
    rw [built.mem_dominatorList below] at member
    simp only [BitSet.count_eq_length, decide_eq_true_eq] at property
    exact built.immediate_of_depthOf ⟨property.1, member⟩ property.2
  refine ⟨sound, fun immediate => ?_⟩
  cases found : parent? dominance.dominatorSets lower with
  | some other => rw [(sound found).unique immediate]
  | none =>
    have member := (built.mem_dominatorList below).2 immediate.strict.2
    have refused := List.find?_eq_none.1 found upper member
    simp only [BitSet.count_eq_length, decide_eq_true_eq] at refused
    exact absurd ⟨immediate.strict.1, built.depthOf_immediate immediate⟩ refused

/-- The children of a node are those that it dominates most closely. -/
theorem mem_childNodes (built : Built dominance successors entry) {node child : Nat} :
    child ∈ dominance.childNodes node ↔
      Immediate dominance.graph.Edge dominance.entry node child := by
  have reachableFits : dominance.reachable.Fits := by
    rw [built.reachable_eq]
    exact Digraph.fits_reachable _ _
  have parentAt : Reaches dominance.graph.Edge dominance.entry child →
      dominance.parents.getD child none = if child ≠ dominance.entry
        then parent? dominance.dominatorSets child else none := by
    intro reached
    have below := Digraph.lt_of_reaches built.entry_lt reached
    have held : dominance.reachable.contains child = true := built.mem_reachable.2 reached
    rw [built.parents_eq, List.getD_eq_getElem?_getD, List.getElem?_map, List.getElem?_range below]
    simp [held]
  rw [childNodes, List.mem_filter, reachableFits.mem_toList, built.mem_reachable,
    decide_eq_true_eq]
  constructor
  · rintro ⟨reached, isParent⟩
    rw [parentAt reached] at isParent
    split at isParent
    · exact (built.parent?_eq_some_iff reached).1 isParent
    · cases isParent
  · intro immediate
    have reached := immediate.strict.2.reaches
    refine ⟨reached, ?_⟩
    rw [parentAt reached, if_pos immediate.strict.ne_start]
    exact (built.parent?_eq_some_iff reached).2 immediate

/-- No child is listed twice. -/
theorem nodup_childNodes (dominance : Dominance) (node : Nat) :
    (dominance.childNodes node).Nodup := (BitSet.nodup_toList _).filter _

/-- A node dominates another most closely when its name does. -/
theorem immediate_nameOf (built : Built dominance successors entry) {upper lower : Nat}
    (immediate : Immediate dominance.graph.Edge dominance.entry upper lower) :
    Immediate (Succeeds successors) entry (dominance.nameOf upper) (dominance.nameOf lower) := by
  have upperBelow := Digraph.lt_of_reaches built.entry_lt immediate.strict.2.reaches_upper
  have lowerBelow := Digraph.lt_of_reaches built.entry_lt immediate.strict.2.reaches
  refine ⟨⟨fun same => immediate.strict.1 (built.nameOf_inj upperBelow lowerBelow same),
    (built.dominates_nameOf upperBelow lowerBelow).2 immediate.strict.2⟩, fun other strict => ?_⟩
  obtain ⟨node, found⟩ := built.exists_index? strict.2.reaches_upper
  obtain ⟨nodeBelow, rfl, _⟩ := built.index?_eq_some_iff.1 found
  refine (built.dominates_nameOf nodeBelow upperBelow).2 (immediate.closest node ⟨?_, ?_⟩)
  · exact fun same => strict.1 (congrArg _ same)
  · exact (built.dominates_nameOf nodeBelow lowerBelow).1 strict.2

/-! ## The tree -/

/-- What the name of a node dominates is its own name or that of a node strictly below. -/
theorem exists_strictly_below (built : Built dominance successors entry) {node : Nat}
    (below : node < dominance.graph.order) {name : String}
    (dominates : Dominates (Succeeds successors) entry (dominance.nameOf node) name)
    (apart : name ≠ dominance.nameOf node) :
    ∃ lower < dominance.graph.order, name = dominance.nameOf lower ∧
      StrictlyDominates dominance.graph.Edge dominance.entry node lower := by
  obtain ⟨lower, found⟩ := built.exists_index? dominates.reaches
  obtain ⟨lowerBelow, rfl, _⟩ := built.index?_eq_some_iff.1 found
  exact ⟨lower, lowerBelow, rfl, fun same => apart (congrArg _ same.symm),
    (built.dominates_nameOf below lowerBelow).1 dominates⟩

/-- A tree that names what a node dominates, each block once and under its closest strict
dominator. -/
structure Spans (dominance : Dominance) (successors : SortedMap String (List String))
    (entry : String) (node : Nat) (tree : Tree) : Prop where
  /-- It names what the node dominates. -/
  mem_preorder : ∀ name, name ∈ tree.preorder ↔
    Dominates (Succeeds successors) entry (dominance.nameOf node) name
  /-- No block is named twice. -/
  nodup_preorder : tree.preorder.Nodup
  /-- Each block but the node's stands under its closest strict dominator. -/
  of_mem_visits : ∀ parent name upper, (name, upper) ∈ tree.visits parent →
    (name = dominance.nameOf node ∧ upper = parent) ∨
      ∃ above, upper = some above ∧ Immediate (Succeeds successors) entry above name

/-- A node with as many dominators as there are nodes is a tree of its own. -/
theorem spans_leaf (built : Built dominance successors entry) {node : Nat}
    (reached : Reaches dominance.graph.Edge dominance.entry node)
    (deep : dominance.graph.order ≤ depthOf dominance node) :
    Spans dominance successors entry node (.node (dominance.nameOf node) []) := by
  have below := Digraph.lt_of_reaches built.entry_lt reached
  refine ⟨fun name => ?_, ?_, fun parent name upper member => ?_⟩
  · rw [Tree.preorder, Tree.preorderAll, List.mem_singleton]
    refine ⟨fun same => ?_, fun dominates => ?_⟩
    · rw [same]
      exact .refl ((built.reaches_nameOf below).2 reached)
    · by_contra apart
      -- Anything strictly below would have more dominators than there are nodes.
      obtain ⟨lower, _, _, strict⟩ := built.exists_strictly_below below dominates apart
      have := built.depthOf_lt strict
      omega
  · rw [Tree.preorder, Tree.preorderAll]
    exact List.nodup_singleton _
  · rw [Tree.visits, Tree.visitsAll, List.mem_singleton] at member
    exact .inl (Prod.mk.inj member)

section Children

variable {node : Nat} {below : Nat → Tree}

/-- A node above the trees of its children names what it dominates. -/
theorem mem_preorder_node (built : Built dominance successors entry)
    (reached : Reaches dominance.graph.Edge dominance.entry node)
    (children : ∀ child ∈ dominance.childNodes node,
      Spans dominance successors entry child (below child)) (name : String) :
    name ∈ (Tree.node (dominance.nameOf node)
        ((dominance.childNodes node).map below)).preorder ↔
      Dominates (Succeeds successors) entry (dominance.nameOf node) name := by
  have nodeBelow := Digraph.lt_of_reaches built.entry_lt reached
  rw [Tree.preorder, Tree.preorderAll_eq_flatMap, List.mem_cons, List.mem_flatMap]
  simp only [List.mem_map, exists_exists_and_eq_and]
  constructor
  · rintro (rfl | ⟨child, member, inTree⟩)
    · exact .refl ((built.reaches_nameOf nodeBelow).2 reached)
    · have isChild := built.immediate_nameOf (built.mem_childNodes.1 member)
      exact isChild.strict.2.trans (((children child member).mem_preorder name).1 inTree)
  · intro dominates
    by_cases same : name = dominance.nameOf node
    · exact .inl same
    · -- One of the children stands in between.
      obtain ⟨lower, lowerBelow, rfl, strict⟩ :=
        built.exists_strictly_below nodeBelow dominates same
      obtain ⟨child, isChild, above⟩ := strict.exists_child
      have member := built.mem_childNodes.2 isChild
      have childBelow := Digraph.lt_of_reaches built.entry_lt isChild.strict.2.reaches
      exact .inr ⟨child, member, ((children child member).mem_preorder _).2
        ((built.dominates_nameOf childBelow lowerBelow).2 above)⟩

/-- A node above the trees of its children names no block twice. -/
theorem nodup_preorder_node (built : Built dominance successors entry)
    (children : ∀ child ∈ dominance.childNodes node,
      Spans dominance successors entry child (below child)) :
    (Tree.node (dominance.nameOf node)
      ((dominance.childNodes node).map below)).preorder.Nodup := by
  rw [Tree.preorder, Tree.preorderAll_eq_flatMap, List.nodup_cons, List.nodup_flatMap,
    List.flatMap_map]
  refine ⟨fun member => ?_, fun tree member => ?_, ?_⟩
  · obtain ⟨child, childMem, inTree⟩ := List.mem_flatMap.1 member
    have isChild := built.immediate_nameOf (built.mem_childNodes.1 childMem)
    have above := ((children child childMem).mem_preorder _).1 inTree
    exact isChild.strict.1 (isChild.strict.2.antisymm above)
  · obtain ⟨child, childMem, rfl⟩ := List.mem_map.1 member
    exact (children child childMem).nodup_preorder
  · rw [List.pairwise_map]
    refine (nodup_childNodes dominance node).imp_of_mem
      fun {left right} leftMem rightMem apart name inLeft inRight => ?_
    -- A block below two children would make them the same child.
    have leftChild := built.mem_childNodes.1 leftMem
    have rightChild := built.mem_childNodes.1 rightMem
    have same := (built.immediate_nameOf leftChild).child_unique
      (built.immediate_nameOf rightChild) (((children left leftMem).mem_preorder name).1 inLeft)
      (((children right rightMem).mem_preorder name).1 inRight)
    exact apart (built.nameOf_inj
      (Digraph.lt_of_reaches built.entry_lt leftChild.strict.2.reaches)
      (Digraph.lt_of_reaches built.entry_lt rightChild.strict.2.reaches) same)

/-- A node spans its tree if its children span theirs. -/
theorem spans_node (built : Built dominance successors entry)
    (reached : Reaches dominance.graph.Edge dominance.entry node)
    (children : ∀ child ∈ dominance.childNodes node,
      Spans dominance successors entry child (below child)) :
    Spans dominance successors entry node
      (.node (dominance.nameOf node) ((dominance.childNodes node).map below)) := by
  refine ⟨built.mem_preorder_node reached children, built.nodup_preorder_node children,
    fun parent name upper member => ?_⟩
  rw [Tree.visits, Tree.visitsAll_eq_flatMap, List.mem_cons, List.mem_flatMap] at member
  rcases member with same | ⟨tree, treeMem, inTree⟩
  · exact .inl (Prod.mk.inj same)
  · obtain ⟨child, childMem, rfl⟩ := List.mem_map.1 treeMem
    rcases (children child childMem).of_mem_visits _ _ _ inTree with ⟨rfl, rfl⟩ | deeper
    · exact .inr ⟨_, rfl, built.immediate_nameOf (built.mem_childNodes.1 childMem)⟩
    · exact .inr deeper

end Children

/-- The tree below a node, cut off deep enough, spans what the node dominates. -/
theorem spans_treeFrom (built : Built dominance successors entry) (depth : Nat) {node : Nat}
    (reached : Reaches dominance.graph.Edge dominance.entry node)
    (deep : dominance.graph.order ≤ depth + depthOf dominance node) :
    Spans dominance successors entry node (dominance.treeFrom depth node) := by
  induction depth generalizing node with
  | zero => exact built.spans_leaf reached (by omega)
  | succ depth depthIH =>
    refine built.spans_node reached fun child member => ?_
    have isChild := built.mem_childNodes.1 member
    have := built.depthOf_immediate isChild
    exact depthIH isChild.strict.2.reaches (by omega)

/-- The entry has one dominator, so the tree is cut off deep enough. -/
theorem tree_spec (built : Built dominance successors entry) :
    (∀ name, name ∈ dominance.tree.preorder ↔ Reaches (Succeeds successors) entry name) ∧
    dominance.tree.preorder.Nodup ∧
    ∀ name upper, (name, upper) ∈ dominance.tree.visits none → (name = entry ∧ upper = none) ∨
      ∃ above, upper = some above ∧ Immediate (Succeeds successors) entry above name := by
  obtain ⟨members, nodup, edges⟩ := built.spans_treeFrom dominance.graph.order
    (.refl _ dominance.entry) (by omega)
  rw [built.nameOf_entry] at members edges
  refine ⟨fun name => ?_, nodup, fun name upper => edges none name upper⟩
  rw [tree, members]
  exact ⟨fun dominates => dominates.reaches, .of_start⟩

/-- The tree starts at the entry. -/
theorem exists_visits_eq (built : Built dominance successors entry) :
    ∃ rest, dominance.tree.visits none = (entry, none) :: rest := by
  unfold tree
  cases dominance.graph.order with
  | zero => exact ⟨[], by rw [treeFrom, Tree.visits, Tree.visitsAll, built.nameOf_entry]⟩
  | succ depth => exact ⟨_, by rw [treeFrom, Tree.visits, built.nameOf_entry]⟩

/-! ## Frontiers -/

/-- The frontier of a reached block holds the targets of edges from blocks that it dominates, unless
it strictly dominates them too. -/
theorem mem_frontier (built : Built dominance successors entry) {name target : String} :
    target ∈ dominance.frontier name ↔ ∃ source, Dominates (Succeeds successors) entry name source ∧
      Succeeds successors source target ∧
        ¬ StrictlyDominates (Succeeds successors) entry name target := by
  have reachableFits : dominance.reachable.Fits := by
    rw [built.reachable_eq]
    exact Digraph.fits_reachable _ _
  -- The nodes collected, before they are put into a set.
  have mem_nodes : ∀ node other, other ∈ dominance.frontierNodes node ↔
      ∃ source, Dominates dominance.graph.Edge dominance.entry node source ∧
        dominance.graph.Edge source other ∧
          ¬ StrictlyDominates dominance.graph.Edge dominance.entry node other := by
    intro node other
    rw [frontierNodes, (BitSet.fits_empty _).mem_insertAll fun index member => by
      obtain ⟨source, _, isTarget⟩ := List.mem_flatMap.1 (List.mem_filter.1 member).1
      exact Digraph.successors_lt isTarget]
    have strictly : ((other ≠ node && dominance.dominatesNode node other) = true) ↔
        StrictlyDominates dominance.graph.Edge dominance.entry node other := by
      rw [Bool.and_eq_true, decide_eq_true_eq, built.dominatesNode_iff, ne_comm]
      rfl
    simp only [List.mem_filter, List.mem_flatMap, reachableFits.mem_toList, built.mem_reachable,
      built.dominatesNode_iff, Digraph.mem_successors, BitSet.not_mem_empty, or_false,
      Bool.not_eq_true', ← Bool.not_eq_true, strictly]
    constructor
    · rintro ⟨⟨source, ⟨_, dominates⟩, edge⟩, beyond⟩
      exact ⟨source, dominates, edge, beyond⟩
    · rintro ⟨source, dominates, edge, beyond⟩
      exact ⟨⟨source, ⟨dominates.reaches, dominates⟩, edge⟩, beyond⟩
  have nodesFit : ∀ node, (dominance.frontierNodes node).Fits := fun node =>
    (BitSet.fits_empty _).insertAll _
  constructor
  · intro member
    unfold frontier at member
    split at member
    · rename_i node found
      obtain ⟨below, rfl, _⟩ := built.index?_eq_some_iff.1 found
      obtain ⟨other, otherMem, rfl⟩ := List.mem_map.1 member
      obtain ⟨source, dominates, edge, beyond⟩ :=
        (mem_nodes node other).1 ((nodesFit _).mem_toList.1 otherMem)
      have sourceBelow := edge.source_lt
      have otherBelow := edge.target_lt
      refine ⟨dominance.nameOf source, (built.dominates_nameOf below sourceBelow).2 dominates,
        built.edge_nameOf edge, fun strict => beyond ⟨fun same => strict.1 (congrArg _ same), ?_⟩⟩
      exact (built.dominates_nameOf below otherBelow).1 strict.2
    · simp at member
  · rintro ⟨source, dominates, succeeds, beyond⟩
    obtain ⟨node, found⟩ := built.exists_index? dominates.reaches_upper
    obtain ⟨below, rfl, _⟩ := built.index?_eq_some_iff.1 found
    obtain ⟨sourceNode, sourceFound⟩ := built.exists_index? dominates.reaches
    obtain ⟨sourceBelow, rfl, _⟩ := built.index?_eq_some_iff.1 sourceFound
    obtain ⟨other, otherFound⟩ := built.exists_index? (dominates.reaches.step succeeds)
    obtain ⟨otherBelow, rfl, _⟩ := built.index?_eq_some_iff.1 otherFound
    have edge := (built.edge_iff sourceNode other).2
      ⟨_, _, built.getElem?_nameOf sourceBelow, built.getElem?_nameOf otherBelow, succeeds⟩
    rw [frontier, found]
    refine List.mem_map_of_mem ((nodesFit _).mem_toList.2 ((mem_nodes node other).2
      ⟨sourceNode, (built.dominates_nameOf below sourceBelow).1 dominates, edge, fun strict =>
        beyond ⟨fun same => strict.1 (built.nameOf_inj below otherBelow same), ?_⟩⟩))
    exact (built.dominates_nameOf below otherBelow).2 strict.2

/-- No block is listed twice on a frontier. -/
theorem nodup_frontier (built : Built dominance successors entry) (name : String) :
    (dominance.frontier name).Nodup := by
  unfold frontier
  split
  · rename_i node _
    refine (List.nodup_map_iff_inj_on (BitSet.nodup_toList _)).2 fun left leftMem right rightMem => ?_
    have below : ∀ {other}, other ∈ (dominance.frontierNodes node).toList →
        other < dominance.graph.order := by
      intro other member
      have fits : (dominance.frontierNodes node).Fits := (BitSet.fits_empty _).insertAll _
      have inside := BitSet.lt_of_mem (fits.mem_toList.1 member)
      rwa [frontierNodes, BitSet.capacity_insertAll, BitSet.capacity_empty] at inside
    exact built.nameOf_inj (below leftMem) (below rightMem)
  · exact List.nodup_nil

/-- What lies on a frontier is reached. -/
theorem reaches_of_frontier (built : Built dominance successors entry) {name target : String}
    (member : target ∈ dominance.frontier name) : Reaches (Succeeds successors) entry target := by
  obtain ⟨source, dominates, succeeds, _⟩ := built.mem_frontier.1 member
  exact dominates.reaches.step succeeds

/-- What is reached is the name of a node. -/
theorem mem_names_of_reaches (built : Built dominance successors entry) {name : String}
    (reached : Reaches (Succeeds successors) entry name) : name ∈ dominance.names := by
  obtain ⟨node, found⟩ := built.exists_index? reached
  obtain ⟨below, rfl, _⟩ := built.index?_eq_some_iff.1 found
  exact List.mem_of_getElem? (built.getElem?_nameOf below)

end Built

end Dominance

end Midend
