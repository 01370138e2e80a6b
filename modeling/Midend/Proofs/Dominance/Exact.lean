import Midend.Proofs.Attempt
import Midend.Proofs.Dominance.Sets
import Midend.Proofs.Sorted

/-! # Exactness of dominance

`Dominance.ofSuccessors` fails only on maps that name a block which is not a key, and otherwise
answers the dominance that paths define: `contains` says which blocks paths reach, and `dominates`
which blocks lie on all of them. `Built` collects what the rest of the theory needs to know about
the answer. -/

namespace Midend

/-- A map of successors leads from one block to another. -/
def Succeeds (successors : SortedMap String (List String)) (source target : String) : Prop :=
  ∃ targets, successors.get? source = some targets ∧ target ∈ targets

/-- The entry and all successors are keys of the map. -/
structure Closed (successors : SortedMap String (List String)) (entry : String) : Prop where
  /-- The entry is a key. -/
  entry_mem : entry ∈ successors.keys
  /-- Every successor is a key. -/
  target_mem : ∀ source target, Succeeds successors source target → target ∈ successors.keys

/-- The place of a name in a list without repetitions. -/
theorem findIdx?_eq_some_iff {names : List String} (nodup : names.Nodup) {name : String}
    {place : Nat} : names.findIdx? (· == name) = some place ↔ names[place]? = some name := by
  rw [List.findIdx?_eq_some_iff_getElem]
  constructor
  · rintro ⟨bound, same, _⟩
    rw [List.getElem?_eq_getElem bound]
    simpa using same
  · intro found
    obtain ⟨bound, same⟩ := List.getElem?_eq_some_iff.1 found
    refine ⟨bound, by simpa using same, fun earlier before => ?_⟩
    have earlierBound : earlier < names.length := by omega
    have apart : names[earlier] ≠ name := fun earlierSame => by
      have := nodup.getElem_inj_iff.1 (earlierSame.trans same.symm)
      omega
    simpa using apart

/-- A name has no place exactly when the list does not name it. -/
theorem findIdx?_eq_none_iff {names : List String} {name : String} :
    names.findIdx? (· == name) = none ↔ name ∉ names := by
  rw [List.findIdx?_eq_none_iff]
  constructor
  · intro apart member
    simpa using apart name member
  · intro absent other member
    have : other ≠ name := fun same => absent (same ▸ member)
    simpa using this

namespace Dominance

variable {successors : SortedMap String (List String)} {entry : String}

/-! ## Edges -/

/-- The entry of a map at a place: its key and its value. -/
theorem values_getElem? {place : Nat} {targets : List String} :
    successors.values[place]? = some targets ↔
      ∃ source, successors.keys[place]? = some source ∧ successors.get? source = some targets := by
  simp only [SortedMap.values, SortedMap.keys, List.getElem?_map, Option.map_eq_some_iff]
  constructor
  · rintro ⟨⟨source, value⟩, found, rfl⟩
    exact ⟨source, ⟨_, found, rfl⟩, SortedMap.get?_eq_some_iff.2 (List.mem_of_getElem? found)⟩
  · rintro ⟨source, ⟨⟨key, value⟩, found, same⟩, valueOf⟩
    change key = source at same
    subst same
    have := SortedMap.get?_eq_some_iff.2 (List.mem_of_getElem? found)
    rw [this] at valueOf
    exact ⟨_, found, Option.some.inj valueOf⟩

/-- The edge between the places of two blocks, if the target has one. -/
def edgeTo (names : List String) (source : Nat) (target : String) : Except Error (Nat × Nat) :=
  match names.findIdx? (· == target) with
  | some place => .ok (source, place)
  | none => .error (.unknownBlock target)

/-- The edges are found one after another. -/
theorem edgesOf_eq (names : List String) :
    edgesOf names successors = (successors.values.zipIdx.mapM fun (entry : List String × Nat) =>
      entry.1.mapM (edgeTo names entry.2)).map List.flatten := by
  have same : edgesOf names successors = (successors.values.zipIdx.mapM fun
      (entry : List String × Nat) => entry.1.mapM (edgeTo names entry.2)) >>=
        fun edges => .ok edges.flatten := rfl
  rw [same]
  cases successors.values.zipIdx.mapM fun (entry : List String × Nat) =>
    entry.1.mapM (edgeTo names entry.2) <;> rfl

/-- An edge is found between the places of two blocks. -/
theorem edgeTo_eq_ok {names : List String} (nodup : names.Nodup) {source : Nat} {target : String}
    {edge : Nat × Nat} : edgeTo names source target = .ok edge ↔
      edge.1 = source ∧ names[edge.2]? = some target := by
  obtain ⟨first, second⟩ := edge
  rw [edgeTo, ← findIdx?_eq_some_iff nodup]
  cases names.findIdx? (· == target) with
  | none => simp
  | some place => simp [eq_comm]

/-- Edges are found only where every successor is a key, and they are those of the map. -/
theorem mem_of_edgesOf_eq_ok {edges : List (Nat × Nat)}
    (found : edgesOf successors.keys successors = .ok edges) :
    (∀ source target, Succeeds successors source target → target ∈ successors.keys) ∧
    ∀ source target, (source, target) ∈ edges ↔ ∃ sourceName targetName,
      successors.keys[source]? = some sourceName ∧ successors.keys[target]? = some targetName ∧
        Succeeds successors sourceName targetName := by
  have nodup := successors.nodup_keys
  rw [edgesOf_eq, Attempt.map_eq_ok] at found
  obtain ⟨lists, all, rfl⟩ := found
  -- A successor of the block at a place gives an edge from that place.
  have placed : ∀ {place : Nat} {source target : String}, successors.keys[place]? = some source →
      Succeeds successors source target →
      ∃ list ∈ lists, ∃ edge ∈ list, edge.1 = place ∧ successors.keys[edge.2]? = some target := by
    rintro place source target isSource ⟨targets, valueOf, member⟩
    have isEntry : (targets, place) ∈ successors.values.zipIdx :=
      List.mem_zipIdx_iff_getElem?.2 (values_getElem?.2 ⟨source, isSource, valueOf⟩)
    obtain ⟨list, listMem, listOk⟩ := Attempt.exists_answer all isEntry
    obtain ⟨edge, edgeMem, edgeOk⟩ := Attempt.exists_answer listOk member
    exact ⟨list, listMem, edge, edgeMem, (edgeTo_eq_ok nodup).1 edgeOk⟩
  refine ⟨fun source target succeeds => ?_, fun source target => ?_⟩
  · have ⟨targets, valueOf, _⟩ := succeeds
    obtain ⟨place, atPlace⟩ := List.getElem?_of_mem (SortedMap.mem_keys.2 ⟨targets, valueOf⟩)
    obtain ⟨_, _, _, _, _, isTarget⟩ := placed atPlace succeeds
    exact List.mem_of_getElem? isTarget
  · rw [List.mem_flatten]
    constructor
    · rintro ⟨list, listMem, edgeMem⟩
      obtain ⟨⟨targets, place⟩, entryMem, listOk⟩ := Attempt.exists_element all listMem
      obtain ⟨targetName, targetMem, edgeOk⟩ := Attempt.exists_element listOk edgeMem
      obtain ⟨rfl, isTarget⟩ := (edgeTo_eq_ok nodup).1 edgeOk
      obtain ⟨sourceName, isSource, valueOf⟩ :=
        values_getElem?.1 (List.mem_zipIdx_iff_getElem?.1 entryMem)
      exact ⟨sourceName, targetName, isSource, isTarget, targets, valueOf, targetMem⟩
    · rintro ⟨sourceName, targetName, isSource, isTarget, succeeds⟩
      obtain ⟨list, listMem, ⟨first, second⟩, edgeMem, rfl, atSecond⟩ := placed isSource succeeds
      have samePlace : second = target := Option.some.inj <| by
        rw [← (findIdx?_eq_some_iff nodup).2 atSecond, ← (findIdx?_eq_some_iff nodup).2 isTarget]
      exact ⟨list, listMem, samePlace ▸ edgeMem⟩

/-- Edges are not found only where some successor is no key. -/
theorem exists_of_edgesOf_eq_error {error : Error}
    (failed : edgesOf successors.keys successors = .error error) :
    ∃ source target, Succeeds successors source target ∧ target ∉ successors.keys ∧
      error = .unknownBlock target := by
  rw [edgesOf_eq] at failed
  cases all : successors.values.zipIdx.mapM fun (entry : List String × Nat) =>
      entry.1.mapM (edgeTo successors.keys entry.2) with
  | ok lists => simp [all, Except.map] at failed
  | error cause =>
    simp only [all, Except.map, Except.error.injEq] at failed
    subst failed
    obtain ⟨⟨targets, place⟩, member, targetsFailed⟩ := Attempt.exists_of_mapM_eq_error all
    obtain ⟨target, targetMem, edgeFailed⟩ := Attempt.exists_of_mapM_eq_error targetsFailed
    obtain ⟨source, _, valueOf⟩ := values_getElem?.1 (List.mem_zipIdx_iff_getElem?.1 member)
    refine ⟨source, target, ⟨targets, valueOf, targetMem⟩, ?_⟩
    simp only [edgeTo] at edgeFailed
    split at edgeFailed
    · cases edgeFailed
    · rename_i missing
      exact ⟨findIdx?_eq_none_iff.1 missing, (Except.error.inj edgeFailed).symm⟩

/-! ## The answer -/

/-- What the dominance of a map of successors is made of. -/
structure Built (dominance : Dominance) (successors : SortedMap String (List String))
    (entry : String) : Prop where
  /-- The entry and all successors are keys. -/
  closed : Closed successors entry
  /-- Blocks are numbered by their keys. -/
  names_eq : dominance.names = successors.keys
  /-- The entry has its number. -/
  entry_eq : dominance.names[dominance.entry]? = some entry
  /-- The nodes are the blocks. -/
  order_eq : dominance.graph.order = dominance.names.length
  /-- The edges are those of the map. -/
  edge_iff : ∀ source target, dominance.graph.Edge source target ↔ ∃ sourceName targetName,
    dominance.names[source]? = some sourceName ∧ dominance.names[target]? = some targetName ∧
      Succeeds successors sourceName targetName
  /-- The reachable blocks are those that paths reach. -/
  reachable_eq : dominance.reachable = dominance.graph.reachable dominance.entry
  /-- The sets fit the graph. -/
  fitting : Fitting dominance.graph dominance.dominatorSets
  /-- The sets hold the dominators. -/
  exact : Exact dominance.graph dominance.entry dominance.dominatorSets
  /-- Parents are looked up in the sets. -/
  parents_eq : dominance.parents = (List.range dominance.graph.order).map fun node =>
    if node ≠ dominance.entry ∧ dominance.reachable.contains node
    then parent? dominance.dominatorSets node else none

/-- A map whose entry and successors are keys has a dominance; any other names an unknown block. -/
theorem ofSuccessors_cases (successors : SortedMap String (List String)) (entry : String) :
    (∃ dominance, ofSuccessors successors entry = .ok dominance ∧
      Built dominance successors entry) ∨
    (¬ Closed successors entry ∧
      ∃ name, ofSuccessors successors entry = .error (.unknownBlock name)) := by
  cases edgesFound : edgesOf successors.keys successors with
  | error error =>
    obtain ⟨source, target, succeeds, missing, rfl⟩ := exists_of_edgesOf_eq_error edgesFound
    refine .inr ⟨fun closed => missing (closed.target_mem _ _ succeeds), target, ?_⟩
    simp [ofSuccessors, edgesFound]
  | ok edges =>
    obtain ⟨targetsKnown, mem_edges⟩ := mem_of_edgesOf_eq_ok edgesFound
    cases placeFound : successors.keys.findIdx? (· == entry) with
    | none =>
      refine .inr ⟨fun closed => findIdx?_eq_none_iff.1 placeFound closed.entry_mem, entry, ?_⟩
      simp [ofSuccessors, edgesFound, placeFound]
    | some place =>
      have atPlace := (findIdx?_eq_some_iff successors.nodup_keys).1 placeFound
      obtain ⟨placeBound, _⟩ := List.getElem?_eq_some_iff.1 atPlace
      obtain ⟨sets, settled, fitting, exactness⟩ :=
        exists_dominatorSets? (Digraph.ofEdges successors.keys.length edges) place placeBound
      refine .inl ⟨⟨successors.keys, place, Digraph.ofEdges successors.keys.length edges,
        (Digraph.ofEdges successors.keys.length edges).reachable place, sets,
        (List.range (Digraph.ofEdges successors.keys.length edges).order).map fun node =>
          if node ≠ place ∧
            ((Digraph.ofEdges successors.keys.length edges).reachable place).contains node
          then parent? sets node else none⟩, ?_,
        ⟨⟨List.mem_of_getElem? atPlace, targetsKnown⟩, rfl, atPlace, rfl, fun source target => ?_,
          rfl, fitting, exactness, rfl⟩⟩
      · simp [ofSuccessors, edgesFound, placeFound, settled]
      · rw [← mem_edges source target, Digraph.Edge, Digraph.ofEdges, List.mem_filter]
        refine and_iff_left_of_imp fun member => ?_
        obtain ⟨_, _, isSource, isTarget, _⟩ := (mem_edges source target).1 member
        have sourceBound := (List.getElem?_eq_some_iff.1 isSource).1
        have targetBound := (List.getElem?_eq_some_iff.1 isTarget).1
        -- Edges are kept only between nodes that are there, and all of them are.
        simp [sourceBound, targetBound]

namespace Built

variable {dominance : Dominance}

/-- Blocks have distinct names. -/
theorem nodup_names (built : Built dominance successors entry) : dominance.names.Nodup :=
  built.names_eq ▸ successors.nodup_keys

/-- The name of a node that has one. -/
theorem nameOf_eq {node : Nat} {name : String} (found : dominance.names[node]? = some name) :
    dominance.nameOf node = name := by
  rw [nameOf, List.getD_eq_getElem?_getD, found]
  rfl

/-- A node has the name listed at its place. -/
theorem getElem?_nameOf (built : Built dominance successors entry) {node : Nat}
    (below : node < dominance.graph.order) :
    dominance.names[node]? = some (dominance.nameOf node) := by
  rw [built.order_eq] at below
  rw [nameOf, List.getD_eq_getElem?_getD, List.getElem?_eq_getElem below]
  rfl

/-- Different nodes have different names. -/
theorem nameOf_inj (built : Built dominance successors entry) {left right : Nat}
    (leftBelow : left < dominance.graph.order) (rightBelow : right < dominance.graph.order)
    (same : dominance.nameOf left = dominance.nameOf right) : left = right := by
  obtain ⟨_, leftName⟩ := List.getElem?_eq_some_iff.1 (built.getElem?_nameOf leftBelow)
  obtain ⟨_, rightName⟩ := List.getElem?_eq_some_iff.1 (built.getElem?_nameOf rightBelow)
  exact (built.nodup_names.getElem_inj_iff).1 (by rw [leftName, rightName, same])

/-- The entry is a node. -/
theorem entry_lt (built : Built dominance successors entry) :
    dominance.entry < dominance.graph.order := by
  rw [built.order_eq]
  exact (List.getElem?_eq_some_iff.1 built.entry_eq).1

/-- The entry's node has the entry's name. -/
theorem nameOf_entry (built : Built dominance successors entry) :
    dominance.nameOf dominance.entry = entry := nameOf_eq built.entry_eq

/-- Nodes are joined as their names are. -/
theorem edge_nameOf (built : Built dominance successors entry) {source target : Nat}
    (edge : dominance.graph.Edge source target) :
    Succeeds successors (dominance.nameOf source) (dominance.nameOf target) := by
  obtain ⟨_, _, isSource, isTarget, succeeds⟩ := (built.edge_iff source target).1 edge
  rwa [nameOf_eq isSource, nameOf_eq isTarget]

/-- A path of nodes is a path of names. -/
theorem path_nameOf (built : Built dominance successors entry) {nodes : List Nat} {node : Nat}
    (path : Path dominance.graph.Edge dominance.entry nodes node) :
    Path (Succeeds successors) entry (nodes.map dominance.nameOf) (dominance.nameOf node) :=
  built.nameOf_entry ▸ path.map dominance.nameOf fun _ _ => built.edge_nameOf

/-- A path of names is a path of nodes. -/
theorem exists_path (built : Built dominance successors entry) {names : List String}
    {name : String} (path : Path (Succeeds successors) entry names name) :
    ∃ nodes node, names = nodes.map dominance.nameOf ∧ name = dominance.nameOf node ∧
      Path dominance.graph.Edge dominance.entry nodes node := by
  -- Only nodes with a name are on the way, so the bound travels along the path.
  have general : ∀ {names : List String} {name : String},
      Path (Succeeds successors) entry names name → ∃ nodes node,
        names = nodes.map dominance.nameOf ∧ name = dominance.nameOf node ∧
          Path dominance.graph.Edge dominance.entry nodes node ∧ node < dominance.graph.order := by
    intro names name path
    induction path with
    | start =>
      exact ⟨[dominance.entry], dominance.entry, by simp [built.nameOf_entry],
        built.nameOf_entry.symm, .start, built.entry_lt⟩
    | step _ lastEdge shorterIH =>
      obtain ⟨nodes, here, rfl, rfl, shorter, below⟩ := shorterIH
      have known := built.closed.target_mem _ _ lastEdge
      rw [← built.names_eq] at known
      obtain ⟨next, bound, rfl⟩ := List.getElem_of_mem known
      have atNext := List.getElem?_eq_getElem bound
      have edge := (built.edge_iff here next).2
        ⟨_, _, built.getElem?_nameOf below, atNext, lastEdge⟩
      exact ⟨next :: nodes, next, by simp [nameOf_eq atNext], (nameOf_eq atNext).symm,
        shorter.step edge, edge.target_lt⟩
  obtain ⟨nodes, node, isNames, isName, isPath, _⟩ := general path
  exact ⟨nodes, node, isNames, isName, isPath⟩

/-- A node is reached when its name is. -/
theorem reaches_nameOf (built : Built dominance successors entry) {node : Nat}
    (below : node < dominance.graph.order) :
    Reaches (Succeeds successors) entry (dominance.nameOf node) ↔
      Reaches dominance.graph.Edge dominance.entry node := by
  constructor
  · rintro ⟨names, path⟩
    obtain ⟨nodes, other, _, same, nodePath⟩ := built.exists_path path
    have otherBelow := Digraph.lt_of_reaches built.entry_lt ⟨nodes, nodePath⟩
    rw [built.nameOf_inj below otherBelow same]
    exact ⟨nodes, nodePath⟩
  · rintro ⟨nodes, path⟩
    exact ⟨_, built.path_nameOf path⟩

/-- A node dominates another when its name dominates the other's. -/
theorem dominates_nameOf (built : Built dominance successors entry) {upper lower : Nat}
    (upperBelow : upper < dominance.graph.order) (lowerBelow : lower < dominance.graph.order) :
    Dominates (Succeeds successors) entry (dominance.nameOf upper) (dominance.nameOf lower) ↔
      Dominates dominance.graph.Edge dominance.entry upper lower := by
  constructor
  · intro dominates
    refine ⟨(built.reaches_nameOf lowerBelow).1 dominates.reaches, fun nodes path => ?_⟩
    obtain ⟨node, member, same⟩ :=
      List.mem_map.1 (dominates.mem_of_path _ (built.path_nameOf path))
    have nodeBelow := Digraph.lt_of_reaches built.entry_lt (path.reaches_of_mem member)
    exact built.nameOf_inj nodeBelow upperBelow same ▸ member
  · intro dominates
    refine ⟨(built.reaches_nameOf lowerBelow).2 dominates.reaches, fun names path => ?_⟩
    obtain ⟨nodes, node, rfl, same, nodePath⟩ := built.exists_path path
    have nodeBelow := Digraph.lt_of_reaches built.entry_lt ⟨nodes, nodePath⟩
    have isLower := built.nameOf_inj lowerBelow nodeBelow same
    exact List.mem_map_of_mem (dominates.mem_of_path nodes (isLower ▸ nodePath))

/-- A node is in the set of reachable ones when it is reached. -/
theorem mem_reachable (built : Built dominance successors entry) {node : Nat} :
    node ∈ dominance.reachable ↔ Reaches dominance.graph.Edge dominance.entry node := by
  rw [built.reachable_eq, Digraph.mem_reachable built.entry_lt]

/-- A block has a number exactly when its name is reached. -/
theorem index?_eq_some_iff (built : Built dominance successors entry) {name : String} {node : Nat} :
    dominance.index? name = some node ↔
      node < dominance.graph.order ∧ dominance.nameOf node = name ∧
        Reaches (Succeeds successors) entry name := by
  rw [index?, Option.filter_eq_some_iff, findIdx?_eq_some_iff built.nodup_names,
    BitSet.contains_iff, built.mem_reachable]
  constructor
  · rintro ⟨found, reached⟩
    have below := Digraph.lt_of_reaches built.entry_lt reached
    have isName := nameOf_eq found
    exact ⟨below, isName, isName ▸ (built.reaches_nameOf below).2 reached⟩
  · rintro ⟨below, rfl, reached⟩
    exact ⟨built.getElem?_nameOf below, (built.reaches_nameOf below).1 reached⟩

/-- A name that is reached has a number. -/
theorem exists_index? (built : Built dominance successors entry) {name : String}
    (reached : Reaches (Succeeds successors) entry name) :
    ∃ node, dominance.index? name = some node := by
  obtain ⟨names, path⟩ := reached
  obtain ⟨nodes, node, rfl, rfl, nodePath⟩ := built.exists_path path
  exact ⟨node, built.index?_eq_some_iff.2
    ⟨Digraph.lt_of_reaches built.entry_lt ⟨nodes, nodePath⟩, rfl, _, path⟩⟩

/-- The blocks contained are those that are reached. -/
theorem contains_iff (built : Built dominance successors entry) {name : String} :
    dominance.contains name = true ↔ Reaches (Succeeds successors) entry name := by
  rw [contains, Option.isSome_iff_exists]
  exact ⟨fun ⟨_, found⟩ => (built.index?_eq_some_iff.1 found).2.2, built.exists_index?⟩

/-- A node dominates another when its number is in the other's set. -/
theorem dominatesNode_iff (built : Built dominance successors entry) {upper lower : Nat} :
    dominance.dominatesNode upper lower = true ↔
      Dominates dominance.graph.Edge dominance.entry upper lower := by
  rw [dominatesNode, BitSet.contains_iff, built.exact]

/-- One block dominates another exactly when paths say so. -/
theorem dominates_iff (built : Built dominance successors entry) {upper lower : String} :
    dominance.dominates upper lower = true ↔
      Dominates (Succeeds successors) entry upper lower := by
  constructor
  · intro held
    unfold dominates at held
    split at held
    · rename_i upperNode lowerNode upperFound lowerFound
      obtain ⟨upperBelow, rfl, _⟩ := built.index?_eq_some_iff.1 upperFound
      obtain ⟨lowerBelow, rfl, _⟩ := built.index?_eq_some_iff.1 lowerFound
      exact (built.dominates_nameOf upperBelow lowerBelow).2 (built.dominatesNode_iff.1 held)
    · simp at held
  · intro dominates
    obtain ⟨upperNode, upperFound⟩ := built.exists_index? dominates.reaches_upper
    obtain ⟨lowerNode, lowerFound⟩ := built.exists_index? dominates.reaches
    obtain ⟨upperBelow, rfl, _⟩ := built.index?_eq_some_iff.1 upperFound
    obtain ⟨lowerBelow, rfl, _⟩ := built.index?_eq_some_iff.1 lowerFound
    rw [Dominance.dominates, upperFound, lowerFound]
    exact built.dominatesNode_iff.2 ((built.dominates_nameOf upperBelow lowerBelow).1 dominates)

end Built

/-- Dominance is found exactly for maps whose entry and successors are keys, and any other map names
an unknown block. What is found agrees with paths: the blocks contained are those that a path from
the entry reaches, and one block dominates another when the other is reached and every path to it
visits the first. -/
theorem ofSuccessors_exact (successors : SortedMap String (List String)) (entry : String) :
    match ofSuccessors successors entry with
    | .ok dominance => Closed successors entry ∧
        (∀ name, dominance.contains name = true ↔
          ∃ nodes, Path (Succeeds successors) entry nodes name) ∧
        ∀ upper lower, dominance.dominates upper lower = true ↔
          (∃ nodes, Path (Succeeds successors) entry nodes lower) ∧
            ∀ nodes, Path (Succeeds successors) entry nodes lower → upper ∈ nodes
    | .error error => ¬ Closed successors entry ∧ ∃ name, error = .unknownBlock name := by
  rcases ofSuccessors_cases successors entry with ⟨dominance, found, built⟩ | ⟨open', name, failed⟩
  · rw [found]
    refine ⟨built.closed, fun name => built.contains_iff, fun upper lower => ?_⟩
    rw [built.dominates_iff]
    exact ⟨fun dominates => ⟨dominates.reaches, dominates.mem_of_path⟩,
      fun ⟨reached, onPaths⟩ => ⟨reached, onPaths⟩⟩
  · rw [failed]
    exact ⟨open', name, rfl⟩

end Dominance

end Midend
