import Midend.Proofs.Checked.Digraph
import Midend.Proofs.Dominance.Tree

/-! # Checked dominance

The dominance of a flow graph is computed on tables with a row for every block. Every lookup is of a
block that has a row, the sets that are intersected have one capacity, and no path in the dominator
tree is longer than there are blocks: all checks pass, whatever the successors are
(`Checked.dominance?_eq`). -/

namespace Midend

namespace Checked

open Dominance

/-! ## Tables -/

section Tables

variable {α : Type}

/-- Sets the rows of nodes to their values, one after another. -/
def fillIn? (value? : Nat → Option α) (nodes : List Nat) (table : List α) : Option (List α) :=
  nodes.foldlM (fun table node => do put? table node (← value? node)) table

/-- Setting one row of a table. -/
theorem set_map_range {count node : Nat} (row : Nat → α) (value : α) :
    ((List.range count).map row).set node value =
      (List.range count).map fun other => if other = node then value else row other := by
  refine List.ext_getElem (by simp) fun place _ bound => ?_
  rw [List.getElem_set, List.getElem_map, List.getElem_map, List.getElem_range]
  simp only [eq_comm]

/-- A table with a row for each of the nodes is filled in. -/
theorem fillIn?_eq {count : Nat} {value? : Nat → Option α} {value : Nat → α} {nodes : List Nat}
    (each : ∀ node ∈ nodes, node < count ∧ value? node = some (value node)) (row : Nat → α) :
    fillIn? value? nodes ((List.range count).map row) =
      some ((List.range count).map fun node => if node ∈ nodes then value node else row node) := by
  induction nodes generalizing row with
  | nil => simp [fillIn?]
  | cons node rest restIH =>
    rw [List.forall_mem_cons] at each
    have inside : node < ((List.range count).map row).length := by simpa using each.1.1
    rw [fillIn?, List.foldlM_cons, each.1.2, some_bind, put?_eq inside, some_bind, set_map_range]
    refine (restIH each.2 _).trans (congrArg some (List.map_congr_left fun other _ => ?_))
    by_cases same : other = node
    · subst same
      simp
    · simp [same]

/-- A table with one value in all rows. -/
theorem replicate_eq_map (count : Nat) (value : α) :
    List.replicate count value = (List.range count).map fun _ => value := by
  rw [List.map_const', List.length_range]

end Tables

/-! ## Places of names -/

/-- The place of each name of a list. -/
def indexOf (names : List String) : SortedMap String Nat := .ofList names.zipIdx

/-- Names and their places. -/
theorem map_fst_zipIdx (names : List String) : names.zipIdx.map Prod.fst = names :=
  List.zipIdx_map_fst 0 names

/-- The index gives every name its place, if no name is listed twice. -/
theorem get?_indexOf {names : List String} (nodup : names.Nodup) (name : String) :
    (indexOf names).get? name = names.findIdx? (· == name) := by
  refine Option.ext fun place => ?_
  rw [findIdx?_eq_some_iff nodup, indexOf,
    SortedMap.get?_ofList_eq_some_iff ((map_fst_zipIdx names).symm ▸ nodup),
    List.mem_zipIdx_iff_getElem?]

/-! ## Edges -/

/-- Adds the edges from a node to those of some names. -/
def addEdges? (index : SortedMap String Nat) (source : Nat) :
    List String → Digraph → Checked Digraph
  | [], graph => return graph
  | target :: rest, graph =>
    match index.get? target with
    | some place => do
      addEdges? index source rest (← ofOption (graph.addEdge? source place))
    | none => throw (.unknownBlock target)

/-- Adds the edges of the entries of a map of successors. -/
def addAllEdges? (index : SortedMap String Nat) :
    List (String × List String) → Digraph → Checked Digraph
  | [], graph => return graph
  | (name, targets) :: rest, graph => do
    let source ← ofOption (index.get? name)
    addAllEdges? index rest (← addEdges? index source targets graph)

/-- A graph with further edges between its nodes. -/
def extend (graph : Digraph) (edges : List (Nat × Nat)) : Digraph :=
  .ofEdges graph.order (graph.edges ++ edges)

/-- A graph is its nodes and edges. -/
theorem digraph_ext {left right : Digraph} (order : left.order = right.order)
    (edges : left.edges = right.edges) : left = right := by
  cases left
  cases right
  cases order
  cases edges
  rfl

/-- No further edges. -/
theorem extend_nil (graph : Digraph) : extend graph [] = graph := by
  refine digraph_ext rfl ?_
  show List.filter _ (graph.edges ++ []) = graph.edges
  rw [List.append_nil, List.filter_eq_self]
  intro edge member
  exact decide_eq_true (graph.edges_lt edge member)

/-- Further edges in two steps. -/
theorem extend_append (graph : Digraph) (first second : List (Nat × Nat)) :
    extend graph (first ++ second) = extend (extend graph first) second := by
  refine digraph_ext rfl ?_
  simp [extend, Digraph.ofEdges, List.filter_append, List.filter_filter]

/-- An edge between two nodes can be added. -/
theorem addEdge?_eq {graph : Digraph} {source target : Nat} (sourceBelow : source < graph.order)
    (targetBelow : target < graph.order) :
    graph.addEdge? source target = some (extend graph [(source, target)]) := by
  rw [Digraph.addEdge?, dif_pos ⟨sourceBelow, targetBelow⟩]
  refine congrArg some (digraph_ext rfl ?_)
  show graph.edges ++ _ = List.filter _ _
  rw [List.filter_eq_self.2]
  intro edge member
  rcases List.mem_append.1 member with old | new
  · exact decide_eq_true (graph.edges_lt edge old)
  · obtain rfl := List.mem_singleton.1 new
    exact decide_eq_true ⟨sourceBelow, targetBelow⟩

variable {names : List String} {graph : Digraph}

/-- The checks on the edges of one block pass. -/
theorem addEdges?_eq (nodup : names.Nodup) (order : graph.order = names.length) {source : Nat}
    (below : source < graph.order) (targets : List String) :
    addEdges? (indexOf names) source targets graph =
      ofExcept ((targets.mapM (edgeTo names source)).map (extend graph)) := by
  induction targets generalizing graph with
  | nil =>
    rw [List.mapM_nil]
    exact congrArg (fun graph => ofExcept (.ok graph)) (extend_nil graph).symm
  | cons target rest restIH =>
    rw [addEdges?, get?_indexOf nodup, List.mapM_cons, edgeTo]
    cases found : names.findIdx? (· == target) with
    | none => rfl
    | some place =>
      have placeBelow : place < graph.order := order ▸ (List.getElem?_eq_some_iff.1
        ((findIdx?_eq_some_iff nodup).1 found)).1
      dsimp only
      rw [addEdge?_eq below placeBelow, ofOption_some, ofExcept_ok_bind,
        @restIH (extend graph [(source, place)]) order below]
      cases rest.mapM (edgeTo names source) with
      | error error => rfl
      | ok edges =>
        exact congrArg (fun graph => ofExcept (.ok graph))
          (extend_append graph [(source, place)] edges).symm

/-- The checks on the edges of all blocks pass. -/
theorem addAllEdges?_eq (nodup : names.Nodup) (order : graph.order = names.length) {first : Nat}
    {entries : List (String × List String)}
    (placed : ∀ place entry, entries[place]? = some entry → names[first + place]? = some entry.1) :
    addAllEdges? (indexOf names) entries graph =
      ofExcept ((((entries.map Prod.snd).zipIdx first).mapM fun (entry : List String × Nat) =>
        entry.1.mapM (edgeTo names entry.2)).map fun edges => extend graph edges.flatten) := by
  induction entries generalizing graph first with
  | nil =>
    rw [List.map_nil, List.zipIdx_nil, List.mapM_nil]
    exact congrArg (fun graph => ofExcept (.ok graph)) (extend_nil graph).symm
  | cons entry rest restIH =>
    obtain ⟨name, targets⟩ := entry
    have isName : names[first]? = some name := placed 0 _ rfl
    have below : first < graph.order := order ▸ (List.getElem?_eq_some_iff.1 isName).1
    rw [addAllEdges?, get?_indexOf nodup, (findIdx?_eq_some_iff nodup).2 isName, ofOption_some,
      ofExcept_ok_bind, addEdges?_eq nodup order below, List.map_cons, List.zipIdx_cons,
      List.mapM_cons]
    cases targets.mapM (edgeTo names first) with
    | error error => rfl
    | ok edges =>
      have later := @restIH (extend graph edges) order (first + 1) fun place entry found => ?_
      · refine later.trans ?_
        cases ((rest.map Prod.snd).zipIdx (first + 1)).mapM fun (entry : List String × Nat) =>
            entry.1.mapM (edgeTo names entry.2) with
        | error error => rfl
        | ok others =>
          exact congrArg (fun graph => ofExcept (.ok graph))
            (extend_append graph edges others.flatten).symm
      · have shifted := placed (place + 1) entry found
        rwa [show first + 1 + place = first + (place + 1) by omega]

/-! ## Dominator sets -/

/-- What the dominators of a node must be, given those of its predecessors. -/
def refine? (graph : Digraph) (reachable : BitSet) (sets : List BitSet) (node : Nat) :
    Option BitSet := do
  let common ← (graph.predecessors node).foldlM (fun common source => do
    if ← hasBit? reachable source then
      return (← common.combine? BitSet.inter (← sets[source]?)).2
    else return common) reachable
  return (← insertBit? common node).2

/-- Refines the sets of the given nodes one after another. -/
def refineAll? (graph : Digraph) (reachable : BitSet) (nodes : List Nat) (sets : List BitSet) :
    Option (List BitSet) :=
  nodes.foldlM (fun sets node => do put? sets node (← refine? graph reachable sets node)) sets

/-- Refines the sets until a pass changes nothing, in at most `budget` passes. -/
def settle? (graph : Digraph) (reachable : BitSet) (nodes : List Nat) :
    (budget : Nat) → List BitSet → Checked (List BitSet)
  | 0, _ => throw (.nonConvergence "dominators" (graph.order + 3))
  | budget + 1, sets => do
    let refined ← ofOption (refineAll? graph reachable nodes sets)
    if refined = sets then return sets else settle? graph reachable nodes budget refined

/-- The sets that the passes start from: the entry is its own dominator, and any reachable block may
dominate a reachable one. -/
def startSets? (graph : Digraph) (entry : Nat) (reachable : BitSet) (order : List Nat) :
    Option (List BitSet) := do
  let all ← fillIn? (fun _ => some reachable) order (.replicate graph.order (.empty graph.order))
  put? all entry (← insertBit? (.empty graph.order) entry).2

variable {entry : Nat} {reachable : BitSet}

/-- The checks of one refinement pass. -/
theorem refine?_eq (isReachable : IsReachable graph entry reachable) {sets : List BitSet}
    (fitting : Fitting graph sets) {node : Nat} (below : node < graph.order) :
    refine? graph reachable sets node = some (refine graph reachable sets node) := by
  have meets := @foldlM_eq_some Nat BitSet (graph.predecessors node) (fun common source => do
      if ← hasBit? reachable source then
        return (← common.combine? BitSet.inter (← sets[source]?)).2
      else return common)
    (fun common source =>
      if reachable.contains source then common.inter (setAt sets source) else common) reachable
    (fun common => common.Fits ∧ common.capacity = graph.order)
    ⟨isReachable.fits, isReachable.capacity⟩ ?_
  · rw [refine?, meets.1, some_bind, ← List.foldl_filter,
      insertBit?_eq (List.foldl_filter ▸ meets.2.1) (by rw [List.foldl_filter, meets.2.2]; exact below)]
    rfl
  · intro common keeps source member
    have sourceBelow := (graph.edges_lt _ (Digraph.mem_predecessors.1 member)).1
    have setFits := fitting.setAt sourceBelow
    have inside : source < sets.length := fitting.length_eq ▸ sourceBelow
    have found : sets[source]? = some (setAt sets source) := by
      rw [setAt, List.getD_eq_getElem _ _ inside, List.getElem?_eq_getElem inside]
    rw [hasBit?_eq isReachable.fits, some_bind]
    split
    · rw [found, some_bind, BitSet.combine?, if_pos (keeps.2.trans setFits.2.symm)]
      exact ⟨rfl, keeps.1.inter setFits.1 (keeps.2.trans setFits.2.symm),
        (BitSet.capacity_inter ..).trans keeps.2⟩
    · exact ⟨rfl, keeps⟩

/-- Setting a row to a set that fits. -/
theorem fitting_set {sets : List BitSet} (fitting : Fitting graph sets) (node : Nat) {set : BitSet}
    (fits : set.Fits ∧ set.capacity = graph.order) : Fitting graph (sets.set node set) := by
  refine ⟨(List.length_set ..).trans fitting.length_eq, fun other member => ?_⟩
  rcases List.mem_or_eq_of_mem_set member with old | rfl
  · exact fitting.fits other old
  · exact fits

/-- The checks of one pass over the nodes pass. -/
theorem refineAll?_eq (isReachable : IsReachable graph entry reachable) {nodes : List Nat}
    (below : ∀ node ∈ nodes, node < graph.order) {sets : List BitSet} (fitting : Fitting graph sets) :
    refineAll? graph reachable nodes sets = some (refineAll graph reachable nodes sets) ∧
      Fitting graph (refineAll graph reachable nodes sets) :=
  foldlM_eq_some (Fitting graph) fitting fun sets fitting node member => by
    have nodeBelow := below node member
    have inside : node < sets.length := fitting.length_eq ▸ nodeBelow
    rw [refine?_eq isReachable fitting nodeBelow, some_bind, put?_eq inside]
    exact ⟨rfl, fitting_set fitting node (mem_refine isReachable fitting nodeBelow).1⟩

/-- The checks of the iteration pass. -/
theorem settle?_eq (isReachable : IsReachable graph entry reachable) {nodes : List Nat}
    (below : ∀ node ∈ nodes, node < graph.order) {sets final : List BitSet}
    (fitting : Fitting graph sets) {budget : Nat}
    (settled : settle graph reachable nodes budget sets = some final) :
    settle? graph reachable nodes budget sets = ofExcept (.ok final) := by
  induction budget generalizing sets with
  | zero => cases settled
  | succ budget budgetIH =>
    obtain ⟨answers, after⟩ := refineAll?_eq isReachable below fitting
    rw [settle?, answers, ofOption_some, ofExcept_ok_bind]
    rw [settle] at settled
    split at settled
    · rename_i fixed
      rw [if_pos fixed, ← Option.some.inj settled]
      rfl
    · rename_i changed
      rw [if_neg changed]
      exact budgetIH after settled

/-- The checks on the first sets pass. -/
theorem startSets?_eq (isReachable : IsReachable graph entry reachable) {order : List Nat}
    (mem_order : ∀ node, node ∈ order ↔ node ∈ reachable) :
    startSets? graph entry reachable order = some ((List.range graph.order).map fun node =>
      if node = entry then (BitSet.empty graph.order).insert entry
      else if reachable.contains node then reachable
      else .empty graph.order) := by
  have below := isReachable.entry_lt
  have filled := @fillIn?_eq BitSet graph.order (fun _ => some reachable) (fun _ => reachable) order
    (fun node member =>
      ⟨isReachable.capacity ▸ BitSet.lt_of_mem ((mem_order node).1 member), rfl⟩)
    fun _ => .empty graph.order
  rw [startSets?, replicate_eq_map, filled, some_bind, insertBit?_eq (BitSet.fits_empty _) below,
    some_bind, put?_eq (by simpa using below), set_map_range]
  refine congrArg some (List.map_congr_left fun node _ => ?_)
  simp only [mem_order, BitSet.contains_iff]

/-! ## The tree and the frontiers -/

/-- The immediate dominator of a node. -/
def parent? (sets : List BitSet) (node : Nat) : Option (Option Nat) := do
  let dominators ← sets[node]?
  dominators.toList.findM? fun other => do
    if other = node then return false
    else return (← sets[other]?).count + 1 = dominators.count

/-- The immediate dominators of all nodes. -/
def parents? (order entry : Nat) (reachable : BitSet) (sets : List BitSet) :
    Option (List (Option Nat)) :=
  fillIn? (parent? sets) (reachable.toList.filter (· ≠ entry)) (.replicate order none)

/-- Adds a node below its immediate dominator, if it has one. -/
def addChild? (parents : List (Option Nat)) (children : List (List Nat)) (node : Nat) :
    Option (List (List Nat)) := do
  match ← parents[node]? with
  | some parent => put? children parent ((← children[parent]?) ++ [node])
  | none => return children

/-- The nodes below each node. -/
def children? (order : Nat) (reachable : BitSet) (parents : List (Option Nat)) :
    Option (List (List Nat)) :=
  reachable.toList.foldlM (addChild? parents) (.replicate order [])

/-- Adds a successor of a dominated node to a frontier, unless it is strictly dominated itself. -/
def addBeyond? (sets : List BitSet) (node : Nat) (frontier : BitSet) (target : Nat) :
    Option BitSet := do
  let within ← if target = node then some false else do hasBit? (← sets[target]?) node
  if within then return frontier else return (← insertBit? frontier target).2

/-- Adds what is just beyond one node to a frontier, if the node is dominated. -/
def addFrom? (graph : Digraph) (sets : List BitSet) (node : Nat) (frontier : BitSet) (lower : Nat) :
    Option BitSet := do
  if ← hasBit? (← sets[lower]?) node then
    (graph.successors lower).foldlM (addBeyond? sets node) frontier
  else return frontier

/-- The nodes just beyond those that a node dominates. -/
def frontier? (graph : Digraph) (reachable : BitSet) (sets : List BitSet) (node : Nat) :
    Option BitSet :=
  reachable.toList.foldlM (addFrom? graph sets node) (.empty graph.order)

/-- The frontiers of all nodes. -/
def frontiers? (graph : Digraph) (reachable : BitSet) (sets : List BitSet) :
    Option (List BitSet) :=
  fillIn? (frontier? graph reachable sets) reachable.toList
    (.replicate graph.order (.empty graph.order))

/-- A set of the table is that of its node. -/
theorem getElem?_setAt {sets : List BitSet} (fitting : Fitting graph sets) {node : Nat}
    (below : node < graph.order) : sets[node]? = some (setAt sets node) := by
  have inside : node < sets.length := fitting.length_eq ▸ below
  rw [setAt, List.getD_eq_getElem _ _ inside, List.getElem?_eq_getElem inside]

/-- The checks of the search for an immediate dominator pass. -/
theorem parent?_eq {sets : List BitSet} (fitting : Fitting graph sets) {node : Nat}
    (below : node < graph.order) : parent? sets node = some (Dominance.parent? sets node) := by
  have own := fitting.setAt below
  rw [parent?, getElem?_setAt fitting below, some_bind, Dominance.parent?]
  refine findM?_eq_some fun other member => ?_
  have otherBelow : other < graph.order := own.2 ▸ BitSet.lt_of_mem (own.1.mem_toList.1 member)
  by_cases same : other = node
  · rw [if_pos same]
    exact congrArg some (decide_eq_false fun both => both.1 same).symm
  · rw [if_neg same, getElem?_setAt fitting otherBelow]
    refine congrArg some ?_
    rw [decide_eq_decide]
    exact (and_iff_right same).symm

variable {successors : SortedMap String (List String)} {first : String} {dominance : Dominance}

/-- Reachable nodes are nodes. -/
theorem lt_of_reachable (built : Built dominance successors first) {node : Nat}
    (member : node ∈ dominance.reachable.toList) : node < dominance.graph.order := by
  have fits : dominance.reachable.Fits := built.reachable_eq ▸ Digraph.fits_reachable _ _
  exact Digraph.lt_of_reaches built.entry_lt (built.mem_reachable.1 (fits.mem_toList.1 member))

/-- The checks on the immediate dominators pass. -/
theorem parents?_eq (built : Built dominance successors first) :
    parents? dominance.graph.order dominance.entry dominance.reachable dominance.dominatorSets =
      some dominance.parents := by
  have fits : dominance.reachable.Fits := built.reachable_eq ▸ Digraph.fits_reachable _ _
  have each : ∀ node ∈ dominance.reachable.toList.filter (· ≠ dominance.entry),
      node < dominance.graph.order ∧ parent? dominance.dominatorSets node =
        some (Dominance.parent? dominance.dominatorSets node) := by
    intro node member
    have below := lt_of_reachable built (List.mem_filter.1 member).1
    exact ⟨below, parent?_eq built.fitting below⟩
  rw [parents?, replicate_eq_map, fillIn?_eq each, built.parents_eq]
  refine congrArg some (List.map_congr_left fun node _ => ?_)
  simp only [List.mem_filter, fits.mem_toList, decide_eq_true_eq, BitSet.contains_iff, and_comm]

/-- Those of some nodes that are below each node. -/
def childTable (dominance : Dominance) (nodes : List Nat) : List (List Nat) :=
  (List.range dominance.graph.order).map fun parent =>
    nodes.filter fun child => dominance.parents.getD child none = some parent

/-- The immediate dominator of a reachable node is in the table, and is a node. -/
theorem parent_spec (built : Built dominance successors first) {node : Nat}
    (reachable : node ∈ dominance.reachable.toList) :
    dominance.parents[node]? = some (dominance.parents.getD node none) ∧
      ∀ parent, dominance.parents.getD node none = some parent → parent < dominance.graph.order := by
  have fits : dominance.reachable.Fits := built.reachable_eq ▸ Digraph.fits_reachable _ _
  have reached := built.mem_reachable.1 (fits.mem_toList.1 reachable)
  have below := lt_of_reachable built reachable
  have inside : node < dominance.parents.length := by
    rw [built.parents_eq, List.length_map, List.length_range]
    exact below
  refine ⟨by rw [List.getD_eq_getElem _ _ inside, List.getElem?_eq_getElem inside],
    fun parent found => ?_⟩
  rw [built.parents_eq, List.getD_eq_getElem?_getD, List.getElem?_map, List.getElem?_range below,
    Option.map_some, Option.getD_some] at found
  split at found
  · have immediate := (built.parent?_eq_some_iff reached).1 found
    exact Digraph.lt_of_reaches built.entry_lt immediate.strict.2.reaches_upper
  · cases found

/-- The checks on adding a node below its immediate dominator pass. -/
theorem addChild?_eq (built : Built dominance successors first) {node : Nat}
    (reachable : node ∈ dominance.reachable.toList) (done : List Nat) :
    addChild? dominance.parents (childTable dominance done) node =
      some (childTable dominance (done ++ [node])) := by
  obtain ⟨isParent, parentBelow⟩ := parent_spec built reachable
  rw [addChild?, isParent, some_bind]
  cases found : dominance.parents.getD node none with
  | none =>
    refine congrArg some (List.map_congr_left fun parent _ => ?_)
    rw [List.filter_append, List.filter_singleton, found]
    simp
  | some parent =>
    have below := parentBelow parent found
    dsimp only
    rw [childTable, List.getElem?_map, List.getElem?_range below, Option.map_some, some_bind,
      put?_eq (by simpa using below), set_map_range]
    refine congrArg some (List.map_congr_left fun other _ => ?_)
    rw [List.filter_append, List.filter_singleton, found]
    by_cases same : other = parent
    · subst same
      simp
    · simp [same, Ne.symm same]

/-- The checks on the nodes below each node pass. -/
theorem children?_eq (built : Built dominance successors first) :
    children? dominance.graph.order dominance.reachable dominance.parents =
      some ((List.range dominance.graph.order).map dominance.childNodes) := by
  have collects : ∀ (nodes done : List Nat), (∀ node ∈ nodes, node ∈ dominance.reachable.toList) →
      nodes.foldlM (addChild? dominance.parents) (childTable dominance done) =
        some (childTable dominance (done ++ nodes)) := by
    intro nodes
    induction nodes with
    | nil =>
      intro done _
      rw [List.append_nil]
      rfl
    | cons node rest restIH =>
      intro done reachable
      rw [List.forall_mem_cons] at reachable
      rw [List.foldlM_cons, addChild?_eq built reachable.1, some_bind, restIH _ reachable.2,
        List.append_assoc, List.singleton_append]
  have all := collects dominance.reachable.toList [] fun _ member => member
  rw [children?, replicate_eq_map]
  exact all

/-- The checks on adding a successor to a frontier pass. -/
theorem addBeyond?_eq {sets : List BitSet} (fitting : Fitting graph sets) {frontier : BitSet}
    (fits : frontier.Fits ∧ frontier.capacity = graph.order) {node target : Nat}
    (below : target < graph.order) : addBeyond? sets node frontier target =
      some (if !(target ≠ node && (setAt sets target).contains node) then frontier.insert target
        else frontier) := by
  have inserted := insertBit?_eq fits.1 (fits.2.symm ▸ below : target < frontier.capacity)
  rw [addBeyond?, getElem?_setAt fitting below]
  by_cases same : target = node
  · rw [if_pos same, some_bind, if_pos (by simp [same])]
    dsimp only
    rw [if_neg Bool.false_ne_true, inserted]
    rfl
  · rw [if_neg same, some_bind, hasBit?_eq (fitting.setAt below).1, some_bind]
    dsimp only
    cases (setAt sets target).contains node with
    | true => simp [same]
    | false =>
      rw [if_neg Bool.false_ne_true, inserted, Bool.and_false, Bool.not_false, if_pos rfl]
      rfl

/-- The checks on a frontier pass. -/
theorem frontier?_eq (built : Built dominance successors first) (node : Nat) :
    frontier? dominance.graph dominance.reachable dominance.dominatorSets node =
      some (dominance.frontierNodes node) := by
  rw [frontier?, frontierNodes, List.foldl_filter, List.foldl_flatMap, List.foldl_filter]
  -- The frontier found so far fits, so what is beyond further nodes can be added to it.
  refine (foldlM_eq_some (fun frontier => frontier.Fits ∧
    frontier.capacity = dominance.graph.order) ⟨BitSet.fits_empty _, rfl⟩
      fun frontier fits lower member => ?_).1
  have below := lt_of_reachable built member
  have adds := @foldlM_eq_some Nat BitSet (dominance.graph.successors lower)
    (addBeyond? dominance.dominatorSets node) (fun frontier target =>
      if !(target ≠ node && dominance.dominatesNode node target) then frontier.insert target
      else frontier) frontier
    (fun frontier => frontier.Fits ∧ frontier.capacity = dominance.graph.order) fits
    fun frontier fits target member => by
      refine ⟨addBeyond?_eq built.fitting fits (Digraph.successors_lt member), ?_⟩
      split
      · exact ⟨fits.1.insert target, (BitSet.capacity_insert ..).trans fits.2⟩
      · exact fits
  have test : hasBit? (setAt dominance.dominatorSets lower) node =
      some (dominance.dominatesNode node lower) := hasBit?_eq (built.fitting.setAt below).1 node
  rw [addFrom?, getElem?_setAt built.fitting below, some_bind, test, some_bind]
  by_cases dominates : dominance.dominatesNode node lower = true
  · simp only [if_pos dominates]
    exact adds
  · simp only [if_neg dominates]
    exact ⟨rfl, fits⟩

/-- The checks on all frontiers pass. -/
theorem frontiers?_eq (built : Built dominance successors first) :
    frontiers? dominance.graph dominance.reachable dominance.dominatorSets =
      some ((List.range dominance.graph.order).map fun node =>
        if node ∈ dominance.reachable.toList then dominance.frontierNodes node
        else .empty dominance.graph.order) := by
  rw [frontiers?, replicate_eq_map]
  exact fillIn?_eq (fun node member => ⟨lt_of_reachable built member, frontier?_eq built node⟩) _

/-! ## Dominance -/

/-- The dominance of a flow graph with what is looked up in it later. -/
structure DominanceTables where
  /-- The dominance. -/
  base : Dominance
  /-- The node of each name. -/
  index : SortedMap String Nat
  /-- The nodes below each node. -/
  children : List (List Nat)
  /-- The frontier of each node. -/
  frontiers : List BitSet

/-- The dominance of a graph of named nodes with a given entry. -/
def analyse? (names : List String) (graph : Digraph) (entry : Nat) : Checked DominanceTables := do
  let order := (← ofOption (postorder? graph entry)).reverse
  let reachable ← ofOption (insertBits? (.empty graph.order) order)
  let start ← ofOption (startSets? graph entry reachable order)
  let dominatorSets ← settle? graph reachable (order.filter (· ≠ entry)) (graph.order + 2) start
  let parents ← ofOption (parents? graph.order entry reachable dominatorSets)
  let children ← ofOption (children? graph.order reachable parents)
  let frontiers ← ofOption (frontiers? graph reachable dominatorSets)
  return { base := { names, entry, graph, reachable, dominatorSets, parents },
           index := indexOf names, children, frontiers }

/-- The dominance of a map of successors with a given entry. -/
def dominance? (successors : SortedMap String (List String)) (entry : String) :
    Checked DominanceTables := do
  let names := successors.keys
  let graph ← addAllEdges? (indexOf names) successors.toList (.discrete names.length)
  match (indexOf names).get? entry with
  | some entry => analyse? names graph entry
  | none => throw (.unknownBlock entry)

/-- The tables of a dominance. -/
def tablesOf (dominance : Dominance) : DominanceTables where
  base := dominance
  index := indexOf dominance.names
  children := (List.range dominance.graph.order).map dominance.childNodes
  frontiers := (List.range dominance.graph.order).map fun node =>
    if node ∈ dominance.reachable.toList then dominance.frontierNodes node
    else .empty dominance.graph.order

/-- What a post-order visits are the reachable nodes. -/
theorem insertAll_reversePostorder {start : Nat} (below : start < graph.order) :
    (graph.reversePostorder start).foldl BitSet.insert (.empty graph.order) =
      graph.reachable start := by
  have fits := BitSet.fits_empty graph.order
  refine (fits.insertAll _).ext (Digraph.fits_reachable _ _)
    ((BitSet.capacity_insertAll ..).trans (Digraph.capacity_reachable ..).symm) fun node => ?_
  rw [fits.mem_insertAll fun other member => Digraph.lt_of_reaches below
    ((Digraph.mem_reversePostorder below).1 member), Digraph.mem_reversePostorder below,
    Digraph.mem_reachable below]
  simp

/-- The checks on the edges of a map of successors pass. -/
theorem addAllEdges?_toList (successors : SortedMap String (List String)) :
    addAllEdges? (indexOf successors.keys) successors.toList (.discrete successors.keys.length) =
      ofExcept ((edgesOf successors.keys successors).map
        (Digraph.ofEdges successors.keys.length)) := by
  rw [@addAllEdges?_eq successors.keys (.discrete successors.keys.length) successors.nodup_keys rfl 0
    successors.toList fun place entry found => by
      rw [Nat.zero_add, SortedMap.keys, List.getElem?_map, found]
      rfl, edgesOf_eq]
  show ofExcept (Except.map _ (successors.values.zipIdx.mapM _)) = _
  cases successors.values.zipIdx.mapM fun (entry : List String × Nat) =>
    entry.1.mapM (edgeTo successors.keys entry.2) <;> rfl

/-- The checks on the nodes of a graph whose dominator sets are found pass. -/
theorem analyse?_eq (built : Built dominance successors first)
    (settled : dominatorSets? dominance.graph dominance.entry = some dominance.dominatorSets) :
    analyse? dominance.names dominance.graph dominance.entry = ofExcept (.ok (tablesOf dominance)) := by
  have below := built.entry_lt
  have visits : ∀ node, node ∈ dominance.graph.reversePostorder dominance.entry ↔
      node ∈ dominance.reachable := by
    intro node
    rw [Digraph.mem_reversePostorder below, built.mem_reachable]
  have isReachable : IsReachable dominance.graph dominance.entry dominance.reachable :=
    ⟨below, built.reachable_eq ▸ Digraph.fits_reachable _ _,
      built.reachable_eq ▸ Digraph.capacity_reachable _ _, fun _ => built.mem_reachable⟩
  rw [dominatorSets?, insertAll_reversePostorder below, ← built.reachable_eq] at settled
  have inside : ∀ node ∈ dominance.graph.reversePostorder dominance.entry,
      node < dominance.graph.order := by
    intro node member
    exact isReachable.capacity ▸ BitSet.lt_of_mem ((visits node).1 member)
  have reached : insertBits? (.empty dominance.graph.order)
      (dominance.graph.reversePostorder dominance.entry) = some dominance.reachable := by
    rw [insertBits?_eq (BitSet.fits_empty _) inside, insertAll_reversePostorder below,
      built.reachable_eq]
  have passes := settle?_eq isReachable
    (fun node member => inside node (List.mem_filter.1 member).1)
    (approximates_start isReachable).fitting settled
  -- One table is built after another, each from those that passed before it.
  rw [analyse?, postorder?_eq, ofOption_some, ofExcept_ok_bind]
  show ofOption (insertBits? _ (dominance.graph.reversePostorder dominance.entry)) >>= _ = _
  rw [reached, ofOption_some, ofExcept_ok_bind]
  show ofOption (startSets? _ _ _ (dominance.graph.reversePostorder dominance.entry)) >>= _ = _
  rw [startSets?_eq isReachable visits, ofOption_some, ofExcept_ok_bind]
  show settle? _ _ ((dominance.graph.reversePostorder dominance.entry).filter _) _ _ >>= _ = _
  rw [passes, ofExcept_ok_bind, parents?_eq built, ofOption_some, ofExcept_ok_bind,
    children?_eq built, ofOption_some, ofExcept_ok_bind, frontiers?_eq built]
  rfl

/-- The checks of a computation of dominance pass, whatever the successors are. -/
theorem dominance?_eq (successors : SortedMap String (List String)) (entry : String) :
    dominance? successors entry =
      ofExcept ((ofSuccessors successors entry).map tablesOf) := by
  rw [dominance?, addAllEdges?_toList, get?_indexOf successors.nodup_keys]
  cases edgesFound : edgesOf successors.keys successors with
  | error error =>
    rw [ofSuccessors, edgesFound]
    rfl
  | ok edges =>
    rw [Except.map, ofExcept_ok_bind]
    cases found : successors.keys.findIdx? (· == entry) with
    | none =>
      have failed : ofSuccessors successors entry = .error (.unknownBlock entry) := by
        simp [ofSuccessors, edgesFound, found]
      rw [failed]
      rfl
    | some place =>
      have below : place < (Digraph.ofEdges successors.keys.length edges).order :=
        (List.getElem?_eq_some_iff.1 ((findIdx?_eq_some_iff successors.nodup_keys).1 found)).1
      obtain ⟨sets, settled, _⟩ := exists_dominatorSets? _ place below
      obtain ⟨dominance, isDominance, built⟩ | ⟨_, name, failed⟩ :=
        ofSuccessors_cases successors entry
      case inr => simp [ofSuccessors, edgesFound, found, settled] at failed
      rw [isDominance]
      simp only [ofSuccessors, edgesFound, found, settled, Attempt.ok_bind, Attempt.pure_eq_ok,
        Except.ok.injEq] at isDominance
      subst isDominance
      exact analyse?_eq built settled

end Checked

end Midend
