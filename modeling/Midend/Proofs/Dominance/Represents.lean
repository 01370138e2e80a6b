import Mathlib.Data.String.Basic
import Mathlib.Logic.Relation
import Midend.Proofs.Dominance.Tree

/-! # What the dominator tree says

Immediate dominators, children, depths and the pre-order are questions about one tree, and this tree
is the dominance that paths define (`Dominance.ofSuccessors_represents`): the blocks below a block are
those that it strictly dominates, and the tree is as deep at a block as that has strict dominators.
Everything comes down to one relation, `Immediate`: the closest strict dominator of a block is found
for it (`Built.immediateDominator?_eq_some_iff`) and lists it as a child (`Built.mem_children`). -/

namespace Midend

namespace Dominance

/-- One block stands right above another in the dominator tree. -/
def ParentOf (dominance : Dominance) (upper lower : String) : Prop :=
  lower ∈ dominance.children upper

/-- The answers about the dominator tree agree with each other and with the dominance that paths
define. -/
structure Represents (dominance : Dominance) (successors : SortedMap String (List String))
    (entry : String) : Prop where
  /-- A reached block other than the entry has an immediate dominator: a strict one, which all other
  strict ones dominate. -/
  exists_immediate : ∀ name, Reaches (Succeeds successors) entry name → name ≠ entry →
    ∃ upper, dominance.immediateDominator? name = some upper ∧
      StrictlyDominates (Succeeds successors) entry upper name ∧
      ∀ other, StrictlyDominates (Succeeds successors) entry other name →
        Dominates (Succeeds successors) entry other upper
  /-- The entry has no immediate dominator. -/
  entry_eq_none : dominance.immediateDominator? entry = none
  /-- Children are listed in strictly increasing order. -/
  ascending_children : ∀ name, (dominance.children name).Pairwise (· < ·)
  /-- The children of a block are those that it dominates immediately. -/
  parentOf_iff : ∀ upper lower,
    dominance.ParentOf upper lower ↔ dominance.immediateDominator? lower = some upper
  /-- Below a block are those that it strictly dominates. -/
  transGen_iff : ∀ upper lower, Relation.TransGen dominance.ParentOf upper lower ↔
    StrictlyDominates (Succeeds successors) entry upper lower
  /-- A reached block has a depth, which is the number of edges on its way down from the entry. -/
  depth_eq : ∀ name, Reaches (Succeeds successors) entry name →
    ∃ depth, dominance.depth? name = some depth ∧
      (∃ nodes, Path dominance.ParentOf entry nodes name) ∧
      ∀ nodes, Path dominance.ParentOf entry nodes name → nodes.length = depth + 1
  /-- The pre-order lists the reached blocks. -/
  mem_preorder : ∀ name, name ∈ dominance.preorder ↔ Reaches (Succeeds successors) entry name
  /-- The pre-order lists no block twice. -/
  nodup_preorder : dominance.preorder.Nodup
  /-- The pre-order lists a block after its immediate dominator. -/
  upper_before : ∀ upper name, dominance.immediateDominator? name = some upper →
    ∀ before after, dominance.preorder = before ++ name :: after → upper ∈ before
  /-- The pre-order lists a block and those below it without a gap. -/
  contiguous : ∀ name, Reaches (Succeeds successors) entry name →
    ∃ below, below <:+: dominance.preorder ∧
      ∀ other, other ∈ below ↔ Relation.ReflTransGen dominance.ParentOf name other

/-! ## Parts of a tree -/

/-- A tree stands somewhere in another one. -/
inductive Tree.Within : Tree → Tree → Prop where
  /-- A tree stands in itself. -/
  | refl (tree : Tree) : Within tree tree
  /-- What stands in a tree below a name stands in the whole. -/
  | under {part child : Tree} {name : String} {children : List Tree} :
      child ∈ children → Within part child → Within part (.node name children)

/-- A part of a tree is listed without a gap. -/
theorem Tree.Within.preorder_infix {part whole : Tree} (within : part.Within whole) :
    part.preorder <:+: whole.preorder := by
  induction within with
  | refl => exact List.infix_refl _
  | @under child name children member _ inChild =>
    obtain ⟨before, after, rfl⟩ := List.append_of_mem member
    refine inChild.trans ⟨name :: preorderAll before, preorderAll after, ?_⟩
    rw [preorder]
    simp only [preorderAll_eq_flatMap, List.flatMap_append, List.flatMap_cons, List.cons_append,
      List.append_assoc]

namespace Built

variable {successors : SortedMap String (List String)} {entry : String} {dominance : Dominance}

/-! ## Parents by name -/

/-- The parent that is kept for a reached node is its closest strict dominator. -/
theorem getD_parents_iff (built : Built dominance successors entry) {upper lower : Nat}
    (reached : Reaches dominance.graph.Edge dominance.entry lower) :
    dominance.parents.getD lower none = some upper ↔
      Immediate dominance.graph.Edge dominance.entry upper lower := by
  have fits : dominance.reachable.Fits := by
    rw [built.reachable_eq]
    exact Digraph.fits_reachable _ _
  rw [← built.mem_childNodes, childNodes, List.mem_filter, fits.mem_toList, built.mem_reachable,
    decide_eq_true_eq, and_iff_right reached]

/-- A block dominates another most closely when its node does. -/
theorem exists_immediate_node (built : Built dominance successors entry) {upper : String}
    {lower : Nat} (immediate : Immediate (Succeeds successors) entry upper (dominance.nameOf lower))
    (reached : Reaches dominance.graph.Edge dominance.entry lower) :
    ∃ node, dominance.nameOf node = upper ∧
      Immediate dominance.graph.Edge dominance.entry node lower := by
  have notEntry : lower ≠ dominance.entry := by
    rintro rfl
    exact immediate.strict.ne_start built.nameOf_entry
  obtain ⟨node, isNode⟩ := reached.exists_immediate notEntry
  exact ⟨node, (built.immediate_nameOf isNode).unique immediate, isNode⟩

/-- The immediate dominator of a block is its closest strict dominator. -/
theorem immediateDominator?_eq_some_iff (built : Built dominance successors entry)
    {upper lower : String} : dominance.immediateDominator? lower = some upper ↔
      Immediate (Succeeds successors) entry upper lower := by
  constructor
  · intro found
    unfold immediateDominator? at found
    split at found
    · rename_i node isNode
      obtain ⟨below, rfl, reached⟩ := built.index?_eq_some_iff.1 isNode
      obtain ⟨parent, isParent, rfl⟩ := Option.map_eq_some_iff.1 found
      exact built.immediate_nameOf
        ((built.getD_parents_iff ((built.reaches_nameOf below).1 reached)).1 isParent)
    · cases found
  · intro immediate
    obtain ⟨node, isNode⟩ := built.exists_index? immediate.strict.2.reaches
    obtain ⟨below, rfl, reached⟩ := built.index?_eq_some_iff.1 isNode
    have nodeReached := (built.reaches_nameOf below).1 reached
    obtain ⟨parent, rfl, isParent⟩ := built.exists_immediate_node immediate nodeReached
    rw [immediateDominator?, isNode]
    dsimp only
    rw [(built.getD_parents_iff nodeReached).2 isParent, Option.map_some]

/-- Blocks of which one dominates the other most closely are blocks of such nodes. -/
theorem exists_immediate_nodes (built : Built dominance successors entry) {upper lower : String}
    (immediate : Immediate (Succeeds successors) entry upper lower) : ∃ node child,
      dominance.nameOf node = upper ∧ dominance.nameOf child = lower ∧
        node < dominance.graph.order ∧ child < dominance.graph.order ∧
        Immediate dominance.graph.Edge dominance.entry node child := by
  obtain ⟨child, isChild⟩ := built.exists_index? immediate.strict.2.reaches
  obtain ⟨below, rfl, reached⟩ := built.index?_eq_some_iff.1 isChild
  obtain ⟨node, isName, isNode⟩ :=
    built.exists_immediate_node immediate ((built.reaches_nameOf below).1 reached)
  exact ⟨node, child, isName, rfl,
    Digraph.lt_of_reaches built.entry_lt isNode.strict.2.reaches_upper, below, isNode⟩

/-- The children of a block are those that it dominates most closely. -/
theorem mem_children (built : Built dominance successors entry) {upper lower : String} :
    lower ∈ dominance.children upper ↔ Immediate (Succeeds successors) entry upper lower := by
  constructor
  · intro member
    unfold children at member
    split at member
    · rename_i node isNode
      obtain ⟨_, rfl, _⟩ := built.index?_eq_some_iff.1 isNode
      obtain ⟨child, isChild, rfl⟩ := List.mem_map.1 member
      exact built.immediate_nameOf (built.mem_childNodes.1 isChild)
    · cases member
  · intro immediate
    obtain ⟨node, child, rfl, rfl, nodeBelow, _, isNode⟩ := built.exists_immediate_nodes immediate
    have found := built.index?_eq_some_iff.2 ⟨nodeBelow, rfl, immediate.strict.2.reaches_upper⟩
    rw [children, found]
    exact List.mem_map_of_mem (built.mem_childNodes.2 isNode)

/-- Names follow the order of their nodes. -/
theorem nameOf_lt (built : Built dominance successors entry) {left right : Nat}
    (rightBelow : right < dominance.graph.order) (before : left < right) :
    dominance.nameOf left < dominance.nameOf right := by
  have ascending : dominance.names.Pairwise fun earlier later => compare earlier later = .lt :=
    built.names_eq ▸ successors.ascending
  obtain ⟨leftBound, leftName⟩ :=
    List.getElem?_eq_some_iff.1 (built.getElem?_nameOf (before.trans rightBelow))
  obtain ⟨rightBound, rightName⟩ := List.getElem?_eq_some_iff.1 (built.getElem?_nameOf rightBelow)
  rw [← leftName, ← rightName, ← compare_lt_iff_lt]
  exact List.pairwise_iff_getElem.1 ascending left right leftBound rightBound before

/-- Children are listed in order. -/
theorem ascending_children (built : Built dominance successors entry) (name : String) :
    (dominance.children name).Pairwise (· < ·) := by
  unfold children
  split
  · rename_i node _
    have nodes : (dominance.childNodes node).Pairwise (· < ·) :=
      (BitSet.pairwise_toList dominance.reachable).filter _
    refine List.pairwise_map.2 (nodes.imp_of_mem fun _ isChild before => ?_)
    have immediate := built.mem_childNodes.1 isChild
    exact built.nameOf_lt (Digraph.lt_of_reaches built.entry_lt immediate.strict.2.reaches) before
  · exact .nil

/-! ## Ways down the tree -/

/-- Below a block in the tree is what it strictly dominates. -/
theorem transGen_parentOf_iff (built : Built dominance successors entry) {upper lower : String} :
    Relation.TransGen dominance.ParentOf upper lower ↔
      StrictlyDominates (Succeeds successors) entry upper lower := by
  constructor
  · intro below
    induction below with
    | single isParent => exact (built.mem_children.1 isParent).strict
    | tail _ isParent strict =>
      have last := (built.mem_children.1 isParent).strict
      refine ⟨?_, strict.2.trans last.2⟩
      -- A way down does not come back to where it started.
      rintro rfl
      exact strict.1 (strict.2.antisymm last.2)
  · intro strict
    refine Reaches.immediate_induction (fun lower =>
      StrictlyDominates (Succeeds successors) entry upper lower →
        Relation.TransGen dominance.ParentOf upper lower) ?_ ?_ strict.2.reaches strict
    · exact fun strict => absurd rfl strict.ne_start
    · intro middle lower immediate middleIH strict
      have isParent : dominance.ParentOf middle lower := built.mem_children.2 immediate
      by_cases same : upper = middle
      · exact same ▸ .single isParent
      · exact (middleIH ⟨same, immediate.closest upper strict⟩).tail isParent

/-- In the tree below a reached block, it included, is what it dominates. -/
theorem reflTransGen_parentOf_iff (built : Built dominance successors entry)
    {upper lower : String} (reached : Reaches (Succeeds successors) entry upper) :
    Relation.ReflTransGen dominance.ParentOf upper lower ↔
      Midend.Dominates (Succeeds successors) entry upper lower := by
  rw [Relation.reflTransGen_iff_eq_or_transGen, built.transGen_parentOf_iff]
  constructor
  · rintro (rfl | strict)
    · exact .refl reached
    · exact strict.2
  · intro dominates
    by_cases same : upper = lower
    · exact .inl same.symm
    · exact .inr ⟨same, dominates⟩

/-- The depth of a reached block counts its strict dominators. -/
theorem depth?_eq (built : Built dominance successors entry) {node : Nat}
    (below : node < dominance.graph.order)
    (reached : Reaches (Succeeds successors) entry (dominance.nameOf node)) :
    dominance.depth? (dominance.nameOf node) = some (depthOf dominance node - 1) := by
  rw [depth?, built.index?_eq_some_iff.2 ⟨below, rfl, reached⟩, Option.map_some,
    BitSet.count_eq_length]
  rfl

/-- The entry has depth zero. -/
theorem depth?_entry (built : Built dominance successors entry) :
    dominance.depth? entry = some 0 := by
  have reached := Reaches.refl (Succeeds successors) entry
  have below := built.entry_lt
  have single : (setAt dominance.dominatorSets dominance.entry).toList.Perm [dominance.entry] := by
    rw [List.perm_ext_iff_of_nodup (BitSet.nodup_toList _) (List.nodup_singleton _)]
    intro other
    rw [built.mem_dominatorList below, List.mem_singleton]
    constructor
    · exact fun dominates => dominates.antisymm (.of_start dominates.reaches_upper)
    · rintro rfl
      exact .refl (.refl _ _)
  have depth := built.depth?_eq below (by rwa [built.nameOf_entry])
  rwa [built.nameOf_entry, depthOf, single.length_eq] at depth

/-- A child stands one level below its parent. -/
theorem depth?_child (built : Built dominance successors entry) {upper lower : String}
    (isParent : dominance.ParentOf upper lower) {depth : Nat}
    (upperDepth : dominance.depth? upper = some depth) :
    dominance.depth? lower = some (depth + 1) := by
  have immediate := built.mem_children.1 isParent
  obtain ⟨node, child, rfl, rfl, nodeBelow, below, isNode⟩ :=
    built.exists_immediate_nodes immediate
  -- Every node is among its dominators, so none of the counts is zero.
  have positive : 0 < depthOf dominance node :=
    List.length_pos_of_mem ((built.mem_dominatorList nodeBelow).2
      (.refl isNode.strict.2.reaches_upper))
  have count := built.depthOf_immediate isNode
  rw [built.depth?_eq nodeBelow immediate.strict.2.reaches_upper, Option.some.injEq] at upperDepth
  rw [built.depth?_eq below immediate.strict.2.reaches, Option.some.injEq]
  omega

/-- A way down from the entry has as many edges as the depth says. -/
theorem depth?_of_path (built : Built dominance successors entry) {nodes : List String}
    {name : String} (path : Path dominance.ParentOf entry nodes name) :
    ∃ depth, dominance.depth? name = some depth ∧ nodes.length = depth + 1 := by
  induction path with
  | start => exact ⟨0, built.depth?_entry, rfl⟩
  | step _ isParent shorterIH =>
    obtain ⟨depth, isDepth, length⟩ := shorterIH
    exact ⟨depth + 1, built.depth?_child isParent isDepth, by rw [List.length_cons, length]⟩

/-- A way leads down from the entry to every reached block. -/
theorem exists_path_down (built : Built dominance successors entry) {name : String}
    (reached : Reaches (Succeeds successors) entry name) :
    ∃ nodes, Path dominance.ParentOf entry nodes name := by
  refine Reaches.immediate_induction (fun name => Reaches dominance.ParentOf entry name)
    (.refl _ _) (fun upper lower immediate upperIH => ?_) reached
  exact upperIH.step (built.mem_children.2 immediate)

/-! ## The pre-order -/

/-- The tree below a node stands in the tree below each of its dominators, if both are cut off deep
enough. -/
theorem within_treeFrom (built : Built dominance successors entry) (depth : Nat) {node lower : Nat}
    (dominates : Midend.Dominates dominance.graph.Edge dominance.entry node lower)
    (deep : dominance.graph.order ≤ depth + depthOf dominance node) :
    ∃ depth', dominance.graph.order ≤ depth' + depthOf dominance lower ∧
      (dominance.treeFrom depth' lower).Within (dominance.treeFrom depth node) := by
  induction depth generalizing node with
  | zero =>
    by_cases same : node = lower
    · exact same ▸ ⟨0, deep, .refl _⟩
    · -- Anything strictly below would have more dominators than there are nodes.
      have := built.depthOf_lt ⟨same, dominates⟩
      omega
  | succ depth depthIH =>
    by_cases same : node = lower
    · exact same ▸ ⟨depth + 1, deep, .refl _⟩
    · obtain ⟨child, isChild, above⟩ := StrictlyDominates.exists_child ⟨same, dominates⟩
      have childDepth := built.depthOf_immediate isChild
      obtain ⟨depth', deep', within⟩ := depthIH above (by omega)
      refine ⟨depth', deep', ?_⟩
      rw [treeFrom]
      exact .under (List.mem_map_of_mem (built.mem_childNodes.2 isChild)) within

/-- The pre-order lists what a reached block dominates without a gap. -/
theorem exists_infix_preorder (built : Built dominance successors entry) {name : String}
    (reached : Reaches (Succeeds successors) entry name) :
    ∃ below, below <:+: dominance.preorder ∧
      ∀ other, other ∈ below ↔ Midend.Dominates (Succeeds successors) entry name other := by
  obtain ⟨node, found⟩ := built.exists_index? reached
  obtain ⟨_, rfl, _⟩ := built.index?_eq_some_iff.1 found
  have nodeReached := (built.reaches_nameOf (built.index?_eq_some_iff.1 found).1).1 reached
  obtain ⟨depth, deep, within⟩ :=
    built.within_treeFrom dominance.graph.order (.of_start nodeReached) (by omega)
  exact ⟨_, within.preorder_infix, (built.spans_treeFrom depth nodeReached deep).mem_preorder⟩

/-- The pre-order lists a block after its closest strict dominator. -/
theorem mem_before_of_immediate (built : Built dominance successors entry) {upper name : String}
    (immediate : Immediate (Succeeds successors) entry upper name) {before after : List String}
    (split : dominance.preorder = before ++ name :: after) : upper ∈ before := by
  obtain ⟨_, _, parents⟩ := built.tree_spec
  rw [preorder, ← Tree.map_fst_visits none, List.map_eq_append_iff] at split
  obtain ⟨front, back, visits_eq, rfl, isBack⟩ := split
  obtain ⟨⟨visited, above⟩, rest, rfl, rfl, rfl⟩ := List.map_eq_cons_iff.1 isBack
  -- The visit of the block names what stands above it, which is its closest strict dominator.
  rcases parents visited above (by rw [visits_eq]; simp) with ⟨rfl, _⟩ | ⟨other, rfl, isOther⟩
  · exact absurd rfl immediate.strict.ne_start
  · obtain rfl := isOther.unique immediate
    exact (Tree.parent_visited _ visits_eq).resolve_left nofun

end Built

/-! ## Result -/

/-- The dominance that is found for a map of successors is represented by its tree. -/
theorem ofSuccessors_represents {successors : SortedMap String (List String)} {entry : String}
    {dominance : Dominance} (found : ofSuccessors successors entry = .ok dominance) :
    dominance.Represents successors entry := by
  obtain ⟨other, isOther, built⟩ : ∃ other, ofSuccessors successors entry = .ok other ∧
      Built other successors entry := by
    rcases ofSuccessors_cases successors entry with found | ⟨_, name, failed⟩
    · exact found
    · cases failed.symm.trans found
  -- The dominance that was found is the one that was built.
  obtain rfl := Except.ok.inj (isOther.symm.trans found)
  obtain ⟨members, nodup, _⟩ := built.tree_spec
  refine {
    exists_immediate := fun name reached notEntry => ?_
    entry_eq_none := ?_
    ascending_children := built.ascending_children
    parentOf_iff := fun upper lower => ?_
    transGen_iff := fun upper lower => built.transGen_parentOf_iff
    depth_eq := fun name reached => ?_
    mem_preorder := members
    nodup_preorder := nodup
    upper_before := fun upper name isUpper before after split => ?_
    contiguous := fun name reached => ?_ }
  · obtain ⟨upper, immediate⟩ := reached.exists_immediate notEntry
    exact ⟨upper, built.immediateDominator?_eq_some_iff.2 immediate, immediate.strict,
      immediate.closest⟩
  · rw [Option.eq_none_iff_forall_ne_some]
    intro upper isUpper
    exact (built.immediateDominator?_eq_some_iff.1 isUpper).strict.ne_start rfl
  · rw [ParentOf, built.mem_children, built.immediateDominator?_eq_some_iff]
  · obtain ⟨nodes, path⟩ := built.exists_path_down reached
    obtain ⟨depth, isDepth, _⟩ := built.depth?_of_path path
    refine ⟨depth, isDepth, ⟨nodes, path⟩, fun others otherPath => ?_⟩
    obtain ⟨_, sameDepth, length⟩ := built.depth?_of_path otherPath
    rw [length, Option.some.inj (sameDepth.symm.trans isDepth)]
  · exact built.mem_before_of_immediate (built.immediateDominator?_eq_some_iff.1 isUpper) split
  · obtain ⟨below, isInfix, isBelow⟩ := built.exists_infix_preorder reached
    exact ⟨below, isInfix, fun other => by
      rw [isBelow, built.reflTransGen_parentOf_iff reached]⟩

/-- A choice between two ways in a loop, with a block that nothing leads to. -/
def choiceInLoop : SortedMap String (List String) :=
  .ofList [("a", ["h"]), ("h", ["l", "x"]), ("l", ["j"]), ("r", ["j"]), ("j", ["h"]),
    ("x", ["r", "l"]), ("z", ["j"])]

/-- The join of both ways stands below the head of the loop. -/
theorem ofSuccessors_represents_choiceInLoop : ∃ dominance,
    ofSuccessors choiceInLoop "a" = .ok dominance ∧
      dominance.preorder = ["a", "h", "j", "l", "x", "r"] ∧
      dominance.Represents choiceInLoop "a" := by
  obtain ⟨dominance, found, listed⟩ : ∃ dominance, ofSuccessors choiceInLoop "a" = .ok dominance ∧
      dominance.preorder = ["a", "h", "j", "l", "x", "r"] :=
    ⟨_, rfl, by decide⟩
  exact ⟨dominance, found, listed, ofSuccessors_represents found⟩

end Dominance

end Midend
