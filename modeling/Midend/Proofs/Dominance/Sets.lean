import Midend.Dominance.Basic
import Midend.Proofs.Digraph.Traversal
import Mathlib.Data.List.GetD

/-! # Exactness of dominator sets

The iteration for dominator sets keeps every dominator (`Approximates.lower`), and after `k` passes
what it still allows at a node lies on every path of at most `k` edges to it (`Bounded`). A path may
be taken to visit no node twice, so as many passes as there are nodes make the sets exact, one more
changes nothing, and the limit on passes is never reached (`exists_dominatorSets?`). -/

namespace Midend

namespace Dominance

variable {graph : Digraph} {entry : Nat} {reachable : BitSet}

/-! ## Lists of sets -/

/-- Reading a list of sets after setting one of them. -/
theorem setAt_set {sets : List BitSet} {node : Nat} (bound : node < sets.length) (set : BitSet)
    (other : Nat) :
    setAt (sets.set node set) other = if other = node then set else setAt sets other := by
  rw [setAt, setAt, List.getD_eq_getElem?_getD, List.getD_eq_getElem?_getD, List.getElem?_set]
  by_cases same : other = node
  · subst same
    simp [bound]
  · have apart : node ≠ other := fun eq => same eq.symm
    simp [same, apart]

/-- A set of the list stands at its place. -/
theorem setAt_mem {sets : List BitSet} {node : Nat} (bound : node < sets.length) :
    setAt sets node ∈ sets := by
  rw [setAt, List.getD_eq_getElem _ _ bound]
  exact List.getElem_mem bound

/-! ## One refinement -/

/-- The members common to a set and to several sets of a list. -/
theorem mem_foldl_inter {sets : List BitSet} {capacity : Nat} {sources : List Nat} {start : BitSet}
    (startFits : start.Fits ∧ start.capacity = capacity)
    (fits : ∀ source ∈ sources, (setAt sets source).Fits ∧ (setAt sets source).capacity = capacity) :
    ((sources.foldl (fun common source => common.inter (setAt sets source)) start).Fits ∧
      (sources.foldl (fun common source => common.inter (setAt sets source)) start).capacity =
        capacity) ∧
    ∀ node, node ∈ sources.foldl (fun common source => common.inter (setAt sets source)) start ↔
      node ∈ start ∧ ∀ source ∈ sources, node ∈ setAt sets source := by
  induction sources generalizing start with
  | nil => exact ⟨startFits, by simp⟩
  | cons source rest restIH =>
    have sourceFits := fits source (List.mem_cons_self ..)
    have capacities := startFits.2.trans sourceFits.2.symm
    obtain ⟨restFits, members⟩ := @restIH (start.inter (setAt sets source))
      ⟨startFits.1.inter sourceFits.1 capacities, startFits.2⟩
      fun other member => fits other (List.mem_cons_of_mem _ member)
    refine ⟨restFits, fun node => ?_⟩
    rw [List.foldl_cons, members, startFits.1.mem_inter sourceFits.1 capacities]
    simp only [List.mem_cons, forall_eq_or_imp]
    tauto

/-- The sets fit the graph: one for each node, each with the nodes as its capacity. -/
structure Fitting (graph : Digraph) (sets : List BitSet) : Prop where
  /-- There is a set for every node. -/
  length_eq : sets.length = graph.order
  /-- Every set fits the number of nodes. -/
  fits : ∀ set ∈ sets, set.Fits ∧ set.capacity = graph.order

/-- The set of a node fits. -/
theorem Fitting.setAt {sets : List BitSet} (fitting : Fitting graph sets) {node : Nat}
    (below : node < graph.order) :
    (setAt sets node).Fits ∧ (setAt sets node).capacity = graph.order :=
  fitting.fits _ (setAt_mem (fitting.length_eq ▸ below))

/-- The set of reachable nodes, as the iteration gets it. -/
structure IsReachable (graph : Digraph) (entry : Nat) (reachable : BitSet) : Prop where
  /-- The entry is a node. -/
  entry_lt : entry < graph.order
  /-- It fits. -/
  fits : reachable.Fits
  /-- Its capacity is the number of nodes. -/
  capacity : reachable.capacity = graph.order
  /-- It holds what the entry reaches. -/
  mem_iff : ∀ node, node ∈ reachable ↔ Reaches graph.Edge entry node

/-- A refined set holds the node itself and what all its sources have in common. -/
theorem mem_refine {sets : List BitSet} (isReachable : IsReachable graph entry reachable)
    (fitting : Fitting graph sets) {node : Nat} (below : node < graph.order) :
    ((Dominance.refine graph reachable sets node).Fits ∧
      (Dominance.refine graph reachable sets node).capacity = graph.order) ∧
    ∀ upper, upper ∈ Dominance.refine graph reachable sets node ↔ upper = node ∨
      (Reaches graph.Edge entry upper ∧ ∀ source, graph.Edge source node →
        Reaches graph.Edge entry source → upper ∈ setAt sets source) := by
  obtain ⟨⟨fits, capacity⟩, members⟩ := @mem_foldl_inter sets graph.order
    ((graph.predecessors node).filter reachable.contains) reachable
    ⟨isReachable.fits, isReachable.capacity⟩ fun source member => by
      have edge := Digraph.mem_predecessors.1 (List.mem_filter.1 member).1
      exact fitting.setAt (graph.edges_lt _ edge).1
  refine ⟨⟨fits.insert node, (BitSet.capacity_insert ..).trans capacity⟩, fun upper => ?_⟩
  rw [Dominance.refine, fits.mem_insert (capacity ▸ below), members, isReachable.mem_iff]
  refine or_congr_right (and_congr_right fun _ => ?_)
  simp only [List.mem_filter, Digraph.mem_predecessors, BitSet.contains_iff, isReachable.mem_iff,
    and_imp]
  rfl

/-! ## Passes -/

/-- What the set of a node allows lies on every path of at most `length` edges to it. -/
def Bounded (graph : Digraph) (entry : Nat) (sets : List BitSet) (length node : Nat) : Prop :=
  ∀ nodes, Path graph.Edge entry nodes node → nodes.length ≤ length + 1 →
    ∀ upper ∈ setAt sets node, upper ∈ nodes

/-- Sets that hold all dominators, and nothing that a path of at most `length` edges avoids. -/
structure Approximates (graph : Digraph) (entry : Nat) (sets : List BitSet) (length : Nat) :
    Prop where
  /-- The sets fit the graph. -/
  fitting : Fitting graph sets
  /-- Dominators are kept. -/
  lower : ∀ upper node, Dominates graph.Edge entry upper node → upper ∈ setAt sets node
  /-- Short paths bound the sets. -/
  bounded : ∀ node, Bounded graph entry sets length node
  /-- Nodes that are not reached have no dominators. -/
  unreached : ∀ upper node, upper ∈ setAt sets node → Reaches graph.Edge entry node
  /-- The entry has itself only. -/
  entry_only : ∀ upper ∈ setAt sets entry, upper = entry

/-- Refining one set keeps the approximation, and bounds that set by paths of one edge more. -/
theorem Approximates.refine {sets : List BitSet} {length : Nat}
    (isReachable : IsReachable graph entry reachable)
    (approximates : Approximates graph entry sets length) {node : Nat}
    (reached : Reaches graph.Edge entry node) (notEntry : node ≠ entry) :
    Approximates graph entry (sets.set node (Dominance.refine graph reachable sets node)) length ∧
      Bounded graph entry (sets.set node (Dominance.refine graph reachable sets node))
        (length + 1) node := by
  have below := Digraph.lt_of_reaches isReachable.entry_lt reached
  have bound : node < sets.length := approximates.fitting.length_eq ▸ below
  obtain ⟨fits, members⟩ := mem_refine isReachable approximates.fitting below
  have atOther := setAt_set bound (Dominance.refine graph reachable sets node)
  -- The last edge of a path to the node comes from a source whose set is bounded already.
  have longer : Bounded graph entry
      (sets.set node (Dominance.refine graph reachable sets node)) (length + 1) node := by
    intro nodes path short upper allowed
    rw [atOther, if_pos rfl, members] at allowed
    rcases allowed with rfl | ⟨_, common⟩
    · exact path.finish_mem
    · cases path with
      | start => exact absurd rfl notEntry
      | step shorter lastEdge =>
        refine List.mem_cons_of_mem _ (approximates.bounded _ _ shorter ?_ upper
          (common _ lastEdge ⟨_, shorter⟩))
        simpa using short
  refine ⟨⟨⟨by simpa using approximates.fitting.length_eq, fun set member => ?_⟩,
    fun upper lower dominates => ?_, fun other nodes path short upper allowed => ?_,
    fun upper lower allowed => ?_, fun upper allowed => ?_⟩, longer⟩
  · rcases List.mem_or_eq_of_mem_set member with old | rfl
    · exact approximates.fitting.fits set old
    · exact fits
  · rw [atOther]
    split
    · rename_i same
      subst same
      rw [members]
      by_cases self : upper = lower
      · exact .inl self
      · refine .inr ⟨dominates.reaches_upper, fun source edge sourceReached => ?_⟩
        exact approximates.lower _ _ (Dominates.of_edge ⟨self, dominates⟩ sourceReached edge)
    · exact approximates.lower _ _ dominates
  · by_cases same : other = node
    · subst same
      exact longer nodes path (by omega) upper allowed
    · rw [atOther, if_neg same] at allowed
      exact approximates.bounded other nodes path short upper allowed
  · rw [atOther] at allowed
    split at allowed
    · rename_i same
      exact same ▸ reached
    · exact approximates.unreached _ _ allowed
  · rw [atOther, if_neg (Ne.symm notEntry)] at allowed
    exact approximates.entry_only upper allowed

/-- A pass keeps the approximation and bounds the sets that it refines by longer paths. -/
theorem Approximates.refineAll {sets : List BitSet} {length : Nat}
    (isReachable : IsReachable graph entry reachable)
    (approximates : Approximates graph entry sets length) {nodes : List Nat}
    (reached : ∀ node ∈ nodes, Reaches graph.Edge entry node) (notEntry : entry ∉ nodes) :
    Approximates graph entry (refineAll graph reachable nodes sets) length ∧
      ∀ node, node ∈ nodes ∨ Bounded graph entry sets (length + 1) node →
        Bounded graph entry (Dominance.refineAll graph reachable nodes sets) (length + 1) node := by
  induction nodes generalizing sets with
  | nil => exact ⟨approximates, fun node bounded => bounded.resolve_left (by simp)⟩
  | cons first rest restIH =>
    have firstNot : first ≠ entry := fun same => notEntry (same ▸ List.mem_cons_self ..)
    have firstReached := reached first (List.mem_cons_self ..)
    obtain ⟨afterFirst, firstBounded⟩ :=
      approximates.refine isReachable firstReached firstNot
    obtain ⟨afterAll, bounded⟩ := restIH afterFirst
      (fun node member => reached node (List.mem_cons_of_mem _ member))
      (fun member => notEntry (List.mem_cons_of_mem _ member))
    refine ⟨afterAll, fun node before => bounded node ?_⟩
    by_cases isFirst : node = first
    · exact .inr (isFirst ▸ firstBounded)
    · refine before.imp (fun member => (List.mem_cons.1 member).resolve_left isFirst) fun before => ?_
      have bound : first < sets.length := approximates.fitting.length_eq ▸
        Digraph.lt_of_reaches isReachable.entry_lt firstReached
      intro path isPath short upper allowed
      rw [setAt_set bound, if_neg isFirst] at allowed
      exact before path isPath short upper allowed

/-- A pass over all reached nodes but the entry makes the approximation better by one edge. -/
theorem Approximates.pass {sets : List BitSet} {length : Nat}
    (isReachable : IsReachable graph entry reachable)
    (approximates : Approximates graph entry sets length) {nodes : List Nat}
    (mem_nodes : ∀ node, node ∈ nodes ↔ Reaches graph.Edge entry node ∧ node ≠ entry) :
    Approximates graph entry (Dominance.refineAll graph reachable nodes sets) (length + 1) := by
  obtain ⟨after, bounded⟩ := approximates.refineAll isReachable
    (fun node member => ((mem_nodes node).1 member).1)
    (fun member => ((mem_nodes entry).1 member).2 rfl)
  refine ⟨after.fitting, after.lower, fun node => ?_, after.unreached, after.entry_only⟩
  by_cases reached : Reaches graph.Edge entry node
  · by_cases isEntry : node = entry
    · subst isEntry
      intro path isPath _ upper allowed
      rw [after.entry_only upper allowed]
      exact isPath.start_mem
    · exact bounded node (.inl ((mem_nodes node).2 ⟨reached, isEntry⟩))
  · intro path isPath
    exact absurd ⟨path, isPath⟩ reached

/-! ## Exact sets -/

/-- The sets hold exactly the dominators. -/
def Exact (graph : Digraph) (entry : Nat) (sets : List BitSet) : Prop :=
  ∀ upper node, upper ∈ setAt sets node ↔ Dominates graph.Edge entry upper node

/-- A path that visits no node twice is no longer than there are nodes. -/
theorem length_le_order {nodes : List Nat} {node : Nat} (entryBelow : entry < graph.order)
    (path : Path graph.Edge entry nodes node) (nodup : nodes.Nodup) :
    nodes.length ≤ graph.order := by
  have subset : nodes ⊆ List.range graph.order := fun other member =>
    List.mem_range.2 (Digraph.lt_of_reaches entryBelow (path.reaches_of_mem member))
  simpa using (nodup.subperm subset).length_le

/-- Sets bounded by all paths that visit no node twice are exact. -/
theorem Approximates.exact {sets : List BitSet} {length : Nat} (entryBelow : entry < graph.order)
    (approximates : Approximates graph entry sets length) (long : graph.order ≤ length) :
    Exact graph entry sets := by
  refine fun upper node => ⟨fun allowed => ⟨approximates.unreached _ _ allowed, ?_⟩,
    approximates.lower upper node⟩
  intro nodes path
  obtain ⟨simple, simplePath, nodup, subset⟩ := path.exists_nodup
  have short := length_le_order entryBelow simplePath nodup
  exact subset (approximates.bounded node simple simplePath (by omega) upper allowed)

/-- Exact sets are determined by the graph. -/
theorem Exact.unique {left right : List BitSet} (leftFitting : Fitting graph left)
    (rightFitting : Fitting graph right) (leftExact : Exact graph entry left)
    (rightExact : Exact graph entry right) : left = right := by
  have lengths : left.length = right.length := by
    rw [leftFitting.length_eq, rightFitting.length_eq]
  refine List.ext_getElem lengths fun node leftBound rightBound => ?_
  have below : node < graph.order := leftFitting.length_eq ▸ leftBound
  have leftSet := leftFitting.setAt below
  have rightSet := rightFitting.setAt below
  have same : setAt left node = setAt right node :=
    leftSet.1.ext rightSet.1 (leftSet.2.trans rightSet.2.symm) fun upper => by
      rw [leftExact, rightExact]
  rwa [setAt, setAt, List.getD_eq_getElem _ _ leftBound, List.getD_eq_getElem _ _ rightBound] at same

/-- Passes that start from an approximation settle on exact sets before the budget is spent. -/
theorem exists_settle (isReachable : IsReachable graph entry reachable) {nodes : List Nat}
    (mem_nodes : ∀ node, node ∈ nodes ↔ Reaches graph.Edge entry node ∧ node ≠ entry)
    {budget length : Nat} {sets : List BitSet}
    (approximates : Approximates graph entry sets length) (short : length ≤ graph.order)
    (enough : graph.order < length + budget) :
    ∃ final, settle graph reachable nodes budget sets = some final ∧ Fitting graph final ∧
      Exact graph entry final := by
  induction budget generalizing sets length with
  | zero => omega
  | succ budget budgetIH =>
    have next := approximates.pass isReachable mem_nodes
    by_cases fixed : refineAll graph reachable nodes sets = sets
    · -- What a pass does not change is bounded by paths of any length.
      have all : ∀ more, Approximates graph entry sets (length + more) := by
        intro more
        induction more with
        | zero => exact approximates
        | succ more moreIH => simpa [fixed, Nat.add_assoc] using moreIH.pass isReachable mem_nodes
      refine ⟨sets, by rw [settle, if_pos fixed], approximates.fitting, ?_⟩
      exact (all graph.order).exact isReachable.entry_lt (by omega)
    · have notExact : length < graph.order := by
        by_contra long
        refine fixed (Exact.unique next.fitting approximates.fitting
          (next.exact isReachable.entry_lt (by omega))
          (approximates.exact isReachable.entry_lt (by omega)))
      obtain ⟨final, settled, exactness⟩ := budgetIH next (by omega) (by omega)
      exact ⟨final, by rw [settle, if_neg fixed, settled], exactness⟩

/-- The sets that the iteration starts from approximate the dominators. -/
theorem approximates_start (isReachable : IsReachable graph entry reachable) :
    Approximates graph entry
      ((List.range graph.order).map fun node =>
        if node = entry then (BitSet.empty graph.order).insert entry
        else if reachable.contains node then reachable
        else .empty graph.order) 0 := by
  have emptyFits := BitSet.fits_empty graph.order
  have atNode : ∀ node, setAt ((List.range graph.order).map fun node =>
      if node = entry then (BitSet.empty graph.order).insert entry
      else if reachable.contains node then reachable else .empty graph.order) node =
      if node < graph.order then
        if node = entry then (BitSet.empty graph.order).insert entry
        else if reachable.contains node then reachable else .empty graph.order
      else .empty 0 := by
    intro node
    rw [setAt, List.getD_eq_getElem?_getD, List.getElem?_map]
    by_cases below : node < graph.order
    · simp [below]
    · simp [below]
  have entryMem : ∀ upper, upper ∈ (BitSet.empty graph.order).insert entry ↔ upper = entry := by
    intro upper
    rw [emptyFits.mem_insert isReachable.entry_lt]
    simp
  refine ⟨⟨by simp, fun set member => ?_⟩, fun upper node dominates => ?_,
    fun node nodes path short upper allowed => ?_, fun upper node allowed => ?_,
    fun upper allowed => ?_⟩
  · obtain ⟨node, _, rfl⟩ := List.mem_map.1 member
    split
    · exact ⟨emptyFits.insert entry, BitSet.capacity_insert ..⟩
    · split
      · exact ⟨isReachable.fits, isReachable.capacity⟩
      · exact ⟨emptyFits, rfl⟩
  · have below := Digraph.lt_of_reaches isReachable.entry_lt dominates.reaches
    rw [atNode, if_pos below]
    by_cases isEntry : node = entry
    · subst isEntry
      rw [if_pos rfl, entryMem]
      simpa using dominates.mem_of_path _ .start
    · rw [if_neg isEntry,
        if_pos (BitSet.contains_iff.2 ((isReachable.mem_iff node).2 dominates.reaches))]
      exact (isReachable.mem_iff upper).2 dominates.reaches_upper
  · -- The only path that is short enough stays at the entry.
    cases path with
    | start =>
      rw [atNode, if_pos isReachable.entry_lt, if_pos rfl, entryMem] at allowed
      simp [allowed]
    | step shorter _ =>
      have := List.length_pos_of_mem shorter.finish_mem
      simp only [List.length_cons] at short
      omega
  · rw [atNode] at allowed
    split at allowed
    · split at allowed
      · rename_i isEntry
        exact isEntry ▸ .refl _ _
      · split at allowed
        · rename_i held
          exact (isReachable.mem_iff node).1 held
        · exact absurd allowed (BitSet.not_mem_empty _ _)
    · exact absurd allowed (BitSet.not_mem_empty _ _)
  · rw [atNode, if_pos isReachable.entry_lt, if_pos rfl] at allowed
    exact (entryMem upper).1 allowed

/-- The iteration settles within its limit, on exact sets. -/
theorem exists_dominatorSets? (graph : Digraph) (entry : Nat) (below : entry < graph.order) :
    ∃ sets, dominatorSets? graph entry = some sets ∧ Fitting graph sets ∧
      Exact graph entry sets := by
  have isReachable : IsReachable graph entry
      ((graph.reversePostorder entry).foldl BitSet.insert (.empty graph.order)) := by
    refine ⟨below, (BitSet.fits_empty _).insertAll _, BitSet.capacity_insertAll .., fun node => ?_⟩
    rw [(BitSet.fits_empty _).mem_insertAll fun other member => Digraph.lt_of_reaches below
      ((Digraph.mem_reversePostorder below).1 member), Digraph.mem_reversePostorder below]
    simp
  refine exists_settle isReachable (fun node => ?_) (approximates_start isReachable) (by omega)
    (by omega)
  rw [List.mem_filter, Digraph.mem_reversePostorder below]
  simp

end Dominance

end Midend
