import Mathlib.Data.Finset.Card
import Mathlib.Logic.Relation
import Mathlib.Order.Bounds.Basic
import Midend.Proofs.Registers.Coloring

/-! # Which graphs are colored

Variables of low degree are taken out until none is left. Which variables stay does not depend on the
order: they are the greatest set in which each has `bound` neighbours within the set
(`Interference.Stuck.isGreatest`), because a variable of low degree is in no such set
(`Interference.dense_removeNode_iff`). On the way back a free register is never missing, since a
variable finds fewer neighbours with a register than there are registers
(`Coloring.exists_assign`). -/

namespace Midend

namespace Interference

variable {graph rest : Interference} {bound : Nat} {members : Finset String}

/-! ## Built graphs -/

/-- A graph that is made from the empty one by the operations on graphs. -/
inductive Constructed : Interference → Prop
  | /-- The empty graph. -/
    empty : Constructed {}
  | /-- A variable is added. -/
    addNode {graph : Interference} (constructed : Constructed graph) (node : String) :
      Constructed (graph.addNode node)
  | /-- Two variables are made neighbours. -/
    addEdge {graph : Interference} (constructed : Constructed graph) (left right : String) :
      Constructed (graph.addEdge left right)
  | /-- A variable is removed. -/
    removeNode {graph : Interference} (constructed : Constructed graph) (node : String) :
      Constructed (graph.removeNode node)
  | /-- A variable is merged into any other one. -/
    merge {graph : Interference} (constructed : Constructed graph) (source target : String) :
      Constructed (graph.merge source target)

/-- A merge keeps a graph simple, also one of neighbours. -/
theorem Simple.merge (simple : graph.Simple) (source target : String) :
    (graph.merge source target).Simple := by
  unfold Interference.merge
  split
  · have node := grows_addNode (graph.removeNode source) target
    exact (node.trans (addEdges_spec ..).1).simple (simple.removeNode source)
  · exact simple

/-- In a built graph variables interfere with each other, none with itself. -/
theorem Constructed.simple (constructed : graph.Constructed) : graph.Simple := by
  induction constructed with
  | empty => exact simple_empty
  | addNode _ node ih => exact (grows_addNode _ node).simple ih
  | addEdge _ left right ih => exact (grows_addEdge _ left right).simple ih
  | removeNode _ node ih => exact ih.removeNode node
  | merge _ source target ih => exact ih.merge source target

/-! ## Dense sets -/

/-- A set of variables that each have at least `bound` neighbours within the set. -/
def Dense (graph : Interference) (bound : Nat) (members : Finset String) : Prop :=
  ∀ node ∈ members, node ∈ graph.nodes ∧
    bound ≤ (members.filter fun other => graph.interferes node other).card

/-- Neighbours within a set are no more than the degree. -/
theorem card_filter_le_degree (members : Finset String) (node : String) :
    (members.filter fun other => graph.interferes node other).card ≤ graph.degree node := by
  refine (Finset.card_le_card fun other member => ?_).trans
    (graph.neighbors node).toList.toFinset_card_le
  exact List.mem_toFinset.2 (SortedSet.mem_toList.2 (interferes_iff.1 (Finset.mem_filter.1 member).2))

/-- A variable of low degree is in no dense set. -/
theorem Dense.notMem (dense : graph.Dense bound members) {node : String}
    (low : graph.degree node < bound) : node ∉ members := fun member =>
  absurd ((dense node member).2.trans (card_filter_le_degree members node)) (Nat.not_le.2 low)

/-- Variables other than one that is removed interfere as they did. -/
theorem interferes_removeNode {node left right : String} (leftStays : left ≠ node)
    (rightStays : right ≠ node) :
    (graph.removeNode node).interferes left right = graph.interferes left right := by
  refine Bool.eq_iff_iff.2 ?_
  rw [interferes_iff, interferes_iff, Adjacent, Adjacent, mem_neighbors_removeNode]
  simp only [leftStays, rightStays, ne_eq, not_false_eq_true, true_and]

/-- The dense sets are the same without a variable of low degree. -/
theorem dense_removeNode_iff {node : String} (low : graph.degree node < bound) :
    (graph.removeNode node).Dense bound members ↔ graph.Dense bound members := by
  -- A set without the variable does not notice that it is gone.
  have same : node ∉ members →
      ((graph.removeNode node).Dense bound members ↔ graph.Dense bound members) := by
    intro outside
    refine forall₂_congr fun other member => ?_
    have stays : ∀ {other}, other ∈ members → other ≠ node := fun member same =>
      outside (same ▸ member)
    rw [mem_nodes_removeNode, Finset.filter_congr fun third inside => by
      rw [interferes_removeNode (stays member) (stays inside)]]
    simp only [stays member, ne_eq, not_false_eq_true, true_and]
  constructor
  · intro dense
    exact (same fun member => ((mem_nodes_removeNode ..).1 (dense node member).1).1 rfl).1 dense
  · intro dense
    exact (same (dense.notMem low)).2 dense

/-! ## Taking out variables -/

/-- A variable of low degree is taken out, whichever it is. -/
def TakesOut (bound : Nat) (graph rest : Interference) : Prop :=
  ∃ node ∈ graph.nodes, graph.degree node < bound ∧ rest = graph.removeNode node

/-- No variable can be taken out. -/
def Stuck (bound : Nat) (graph : Interference) : Prop :=
  ∀ node ∈ graph.nodes, bound ≤ graph.degree node

/-- Variables that are taken out leave a graph simple, with the same dense sets. -/
theorem simple_and_dense_iff_of_takesOut (simple : graph.Simple)
    (takesOut : Relation.ReflTransGen (TakesOut bound) graph rest) :
    rest.Simple ∧ ∀ members, rest.Dense bound members ↔ graph.Dense bound members := by
  induction takesOut with
  | refl => exact ⟨simple, fun _ => Iff.rfl⟩
  | tail _ step ih =>
    obtain ⟨node, _, low, rfl⟩ := step
    exact ⟨ih.1.removeNode node, fun members => (dense_removeNode_iff low).trans (ih.2 members)⟩

/-- When no variable can be taken out, the variables are a dense set. -/
theorem Stuck.dense (stuck : graph.Stuck bound) (simple : graph.Simple) :
    graph.Dense bound graph.nodes.toFinset := by
  intro node member
  have inGraph := List.mem_toFinset.1 member
  refine ⟨inGraph, (stuck node inGraph).trans ?_⟩
  -- Neighbours are variables of the graph, so the degree counts them within the set of all variables.
  rw [degree, SortedSet.size,
    ← List.toFinset_card_of_nodup (SortedSet.nodup_toList (graph.neighbors node))]
  refine Finset.card_le_card fun other isNeighbor => ?_
  have adjacent : graph.Adjacent node other := SortedSet.mem_toList.1 (List.mem_toFinset.1 isNeighbor)
  exact Finset.mem_filter.2 ⟨List.mem_toFinset.2 (simple.symm node other adjacent).mem_nodes,
    interferes_iff.2 adjacent⟩

/-- The variables that stay when no further one can be taken out are the greatest dense set. -/
theorem Stuck.isGreatest (stuck : rest.Stuck bound) (simple : graph.Simple)
    (takesOut : Relation.ReflTransGen (TakesOut bound) graph rest) :
    IsGreatest {members | graph.Dense bound members} rest.nodes.toFinset := by
  obtain ⟨isSimple, same⟩ := simple_and_dense_iff_of_takesOut simple takesOut
  refine ⟨(same _).1 (stuck.dense isSimple), fun members dense node member => ?_⟩
  exact List.mem_toFinset.2 (((same members).2 dense) node member).1

/-- Variables are listed in ascending order. -/
theorem ascending_nodes (graph : Interference) : Ascending graph.nodes := graph.neighborMap.ascending

/-- Which variables stay does not depend on the order in which they are taken out. -/
theorem Stuck.nodes_eq (stuck : rest.Stuck bound) (simple : graph.Simple)
    (takesOut : Relation.ReflTransGen (TakesOut bound) graph rest) {other : Interference}
    (otherStuck : other.Stuck bound)
    (otherTakesOut : Relation.ReflTransGen (TakesOut bound) graph other) :
    rest.nodes = other.nodes := by
  have same := (stuck.isGreatest simple takesOut).unique
    (otherStuck.isGreatest simple otherTakesOut)
  refine SortedSet.eq_of_ascending rest.ascending_nodes other.ascending_nodes fun node => ?_
  rw [← List.mem_toFinset, ← List.mem_toFinset, same]

end Interference

namespace Coloring

open Interference

variable {graph : Interference} {colors : Coloring} {registers order : List String} {bound : Nat}

/-! ## The two passes -/

/-- An order is found by taking out all variables. -/
theorem takesOut_of_simplifyFrom_ok {budget : Nat} {taken : List String}
    (simplified : simplifyFrom bound budget graph taken = .ok order) :
    ∃ rest, Relation.ReflTransGen (TakesOut bound) graph rest ∧ rest.nodes = [] := by
  induction budget generalizing graph taken with
  | zero =>
    rw [simplifyFrom] at simplified
    split at simplified
    · rename_i empty
      exact ⟨graph, .refl, isEmpty_iff.1 empty⟩
    · cases simplified
  | succ budget budgetIH =>
    rw [simplifyFrom] at simplified
    split at simplified
    · rename_i empty
      exact ⟨graph, .refl, isEmpty_iff.1 empty⟩
    · split at simplified
      · rename_i node picked
        obtain ⟨rest, takesOut, empty⟩ := budgetIH simplified
        obtain ⟨member, low⟩ := pick?_eq_some picked
        exact ⟨rest, .head ⟨node, member, low, rfl⟩ takesOut, empty⟩
      · cases simplified

/-- An order is only missing when variables are left and none can be taken out. -/
theorem takesOut_of_simplifyFrom_error {budget : Nat} {taken left : List String}
    (enough : graph.size ≤ budget) (refused : simplifyFrom bound budget graph taken = .error left) :
    ∃ rest, Relation.ReflTransGen (TakesOut bound) graph rest ∧ rest.Stuck bound ∧
      rest.nodes = left ∧ left ≠ [] := by
  induction budget generalizing graph taken with
  | zero =>
    -- A graph of size zero is empty, so that the budget is not what ends the search.
    have empty : graph.isEmpty = true :=
      List.isEmpty_iff.2 (List.eq_nil_of_length_eq_zero (Nat.le_zero.1 enough))
    rw [simplifyFrom, if_pos empty] at refused
    cases refused
  | succ budget budgetIH =>
    rw [simplifyFrom] at refused
    split at refused
    · cases refused
    · rename_i someLeft
      split at refused
      · rename_i node picked
        obtain ⟨member, low⟩ := pick?_eq_some picked
        have smaller := size_removeNode_lt member
        obtain ⟨rest, takesOut, stuck⟩ := budgetIH (by omega) refused
        exact ⟨rest, .head ⟨node, member, low, rfl⟩ takesOut, stuck⟩
      · rename_i refusedAll
        obtain rfl := Except.error.inj refused
        exact ⟨graph, .refl, pick?_eq_none refusedAll, rfl, fun none =>
          someLeft (isEmpty_iff.2 none)⟩

/-- A variable with fewer neighbours among those that have a register than there are registers finds
a free one. -/
theorem exists_free (nodup : registers.Nodup) {colors : Coloring} {before : List String}
    {node : String} (known : ∀ other register, colors.get? other = some register → other ∈ before)
    (few : before.countP (graph.interferes node) < registers.length) :
    ∃ free, (registers.find? fun register =>
      !((graph.neighbors node).toList.filterMap colors.get?).contains register) = some free := by
  by_contra missing
  -- If none is free, neighbours have all registers, and there are too few neighbours for that.
  have allTaken : registers ⊆ (graph.neighbors node).toList.filterMap colors.get? := by
    intro register member
    have isTaken := List.find?_eq_none.1 (Option.eq_none_iff_forall_ne_some.2
      fun free isFree => missing ⟨free, isFree⟩) register member
    simpa using isTaken
  have enough := (nodup.subperm allTaken).length_le
  -- Each taken register is that of a neighbour that comes before.
  have holders : ((graph.neighbors node).toList.filter fun other => (colors.get? other).isSome) ⊆
      before.filter (graph.interferes node) := by
    intro other holder
    obtain ⟨isNeighbor, holds⟩ := List.mem_filter.1 holder
    obtain ⟨register, held⟩ := Option.isSome_iff_exists.1 holds
    exact List.mem_filter.2 ⟨known other register held,
      interferes_iff.2 (SortedSet.mem_toList.1 isNeighbor)⟩
  have counted := (((SortedSet.nodup_toList _).filter _).subperm holders).length_le
  rw [List.length_filterMap_eq_countP, List.countP_eq_length_filter] at enough
  rw [List.countP_eq_length_filter] at few
  omega

/-- Registers never run out in an order in which few neighbours come before each variable. -/
theorem exists_assign_append (nodup : registers.Nodup) (before : List String) {rest : List String}
    (few : ∀ front node after, before ++ rest = front ++ node :: after →
      front.countP (graph.interferes node) < registers.length) {colors : Coloring}
    (known : ∀ other register, colors.get? other = some register → other ∈ before) :
    ∃ colored, assign graph registers rest colors = .ok colored := by
  induction rest generalizing before colors with
  | nil => exact ⟨colors, rfl⟩
  | cons node rest restIH =>
    obtain ⟨free, isFree⟩ := exists_free nodup known (few before node rest rfl)
    rw [assign, isFree]
    -- The variable now counts as one that comes before the others.
    refine restIH (before ++ [node]) (fun front other after split => ?_) ?_
    · exact few front other after (by rw [← split, List.append_assoc, List.singleton_append])
    · intro other register
      rw [SortedMap.get?_insert_eq, List.mem_append, List.mem_singleton]
      split
      · exact fun _ => .inr ‹_›
      · exact fun held => .inl (known other register held)

/-- Registers never run out in the order that was found. -/
theorem exists_assign (nodup : registers.Nodup)
    (simplified : simplify graph registers.length = .ok order) :
    ∃ colors, assign graph registers order .empty = .ok colors := by
  obtain ⟨front, rfl, orders⟩ := simplifyFrom_eq_ok simplified
  rw [List.append_nil]
  refine exists_assign_append nodup [] orders.few_before fun other register held => ?_
  simp at held

/-- The first pass ends where no variable can be taken out: where none is left, or with those that
are. -/
theorem takesOut_of_simplify (graph : Interference) (bound : Nat) :
    ∃ rest, Relation.ReflTransGen (TakesOut bound) graph rest ∧ rest.Stuck bound ∧
      ((∃ order, simplify graph bound = .ok order) ∧ rest.nodes = [] ∨
        simplify graph bound = .error rest.nodes ∧ rest.nodes ≠ []) := by
  cases simplified : simplify graph bound with
  | ok order =>
    obtain ⟨rest, takesOut, empty⟩ := takesOut_of_simplifyFrom_ok simplified
    refine ⟨rest, takesOut, fun node member => ?_, .inl ⟨⟨order, rfl⟩, empty⟩⟩
    rw [empty] at member
    cases member
  | error left =>
    obtain ⟨rest, takesOut, stuck, rfl, someLeft⟩ :=
      takesOut_of_simplifyFrom_error le_rfl simplified
    exact ⟨rest, takesOut, stuck, .inr ⟨rfl, someLeft⟩⟩

/-- If no register is missing on the way back, a coloring fails exactly when the first pass does. -/
theorem ofInterference_eq_error_iff (nodup : registers.Nodup) {left : List String} :
    ofInterference graph registers = .error left ↔ simplify graph registers.length = .error left := by
  rw [ofInterference]
  cases simplified : simplify graph registers.length with
  | error remaining =>
    constructor <;>
    · rintro ⟨⟩
      rfl
  | ok order =>
    obtain ⟨colors, assigned⟩ := exists_assign nodup simplified
    constructor
    · intro refused
      cases assigned.symm.trans refused
    · nofun

/-! ## Colorings -/

/-- Different registers for variables that interfere make a coloring valid. -/
theorem isValid_of_apart (all : ∀ node ∈ graph.nodes, ∃ register, colors.get? node = some register)
    (apart : ∀ left right, graph.Adjacent left right → colors.get? left ≠ colors.get? right) :
    isValid graph colors = true := by
  rw [isValid, Bool.and_eq_true, List.all_eq_true, List.all_eq_true]
  refine ⟨fun node member => SortedMap.contains_iff.2 (all node member), ?_⟩
  rintro ⟨left, right⟩ edge
  obtain ⟨⟨node, neighbors⟩, entry, isEdge⟩ := List.mem_flatMap.1 edge
  obtain ⟨other, isNeighbor, isPair⟩ := List.mem_map.1 isEdge
  obtain ⟨rfl, rfl⟩ := Prod.mk.inj isPair
  refine bne_iff_ne.2 (apart node other ?_)
  rw [Adjacent, Interference.neighbors, SortedMap.getD, SortedMap.get?_eq_some_iff.2 entry]
  exact (List.mem_filter.1 isNeighbor).1

/-- Variables get registers of the list, such that those that interfere get different ones. With `k`
different registers this fails exactly for graphs with variables that each have `k` neighbours among
them. The greatest set of such variables is what is answered then, and what stays however variables of
low degree are taken out; registers never run out on the way back. -/
theorem ofInterference_core (constructed : graph.Constructed) (registers : List String) :
    (∀ colors, ofInterference graph registers = .ok colors →
      colors.keys = graph.nodes ∧
      (∀ node register, colors.get? node = some register → register ∈ registers) ∧
      (∀ left right, graph.Adjacent left right → colors.get? left ≠ colors.get? right) ∧
      isValid graph colors = true) ∧
    (registers.Nodup →
      ((∃ left, ofInterference graph registers = .error left) ↔
        ∃ members, members.Nonempty ∧ graph.Dense registers.length members) ∧
      (∀ left, ofInterference graph registers = .error left →
        Ascending left ∧
        IsGreatest {members | graph.Dense registers.length members} left.toFinset ∧
        ∀ rest, Relation.ReflTransGen (TakesOut registers.length) graph rest →
          rest.Stuck registers.length → rest.nodes = left) ∧
      ∀ order, simplify graph registers.length = .ok order →
        ∃ colors, assign graph registers order .empty = .ok colors) := by
  have simple := constructed.simple
  refine ⟨fun colors colored => ?_, fun nodup => ⟨?_, fun left refused => ?_, fun order => ?_⟩⟩
  · obtain ⟨all, ofRegisters, separates⟩ := ofInterference_spec simple colored
    have apart : ∀ left right, graph.Adjacent left right →
        colors.get? left ≠ colors.get? right := by
      intro left right adjacent same
      obtain ⟨register, held⟩ := (all left).2 adjacent.mem_nodes
      exact separates left right adjacent register held (same ▸ held)
    refine ⟨?_, ofRegisters, apart, isValid_of_apart (fun node => (all node).2) apart⟩
    exact SortedSet.eq_of_ascending colors.ascending graph.ascending_nodes fun node =>
      SortedMap.mem_keys.trans (all node)
  · obtain ⟨rest, takesOut, stuck, ⟨⟨order, simplified⟩, empty⟩ | ⟨refused, someLeft⟩⟩ :=
      takesOut_of_simplify graph registers.length
    · -- Nothing is left, so that the greatest dense set is empty.
      have greatest := stuck.isGreatest simple takesOut
      rw [empty] at greatest
      simp only [ofInterference_eq_error_iff nodup, simplified, reduceCtorEq, exists_false, false_iff]
      rintro ⟨members, ⟨node, member⟩, dense⟩
      exact absurd (greatest.2 dense member) (Finset.notMem_empty node)
    · -- What is left is a dense set, and there is something left.
      simp only [ofInterference_eq_error_iff nodup, refused, Except.error.injEq, exists_eq', true_iff]
      obtain ⟨node, member⟩ := List.exists_mem_of_ne_nil _ someLeft
      exact ⟨_, ⟨node, List.mem_toFinset.2 member⟩, (stuck.isGreatest simple takesOut).1⟩
  · rw [ofInterference_eq_error_iff nodup] at refused
    obtain ⟨rest, takesOut, stuck, ⟨⟨order, simplified⟩, _⟩ | ⟨isRest, _⟩⟩ :=
      takesOut_of_simplify graph registers.length
    · cases simplified.symm.trans refused
    · obtain rfl := Except.error.inj (isRest.symm.trans refused)
      exact ⟨rest.ascending_nodes, stuck.isGreatest simple takesOut, fun other otherTakesOut
        otherStuck => otherStuck.nodes_eq simple otherTakesOut stuck takesOut⟩
  · exact exists_assign nodup

/-- Three variables that all interfere; a fourth one interferes with one of them since a merge. -/
def tangle : Interference :=
  let triangle := ((({} : Interference).addEdge "a" "b").addEdge "b" "c").addEdge "a" "c"
  (((triangle.addEdge "d" "e").merge "e" "c").addNode "f").removeNode "f"

/-- A tangle is built. -/
theorem constructed_tangle : tangle.Constructed :=
  ((((((Constructed.empty.addEdge "a" "b").addEdge "b" "c").addEdge "a" "c").addEdge "d" "e").merge
    "e" "c").addNode "f").removeNode "f"

/-- Two registers are too few for a tangle, because of the three variables; three are enough. -/
theorem ofInterference_core_tangle :
    ofInterference tangle ["r0", "r1"] = .error ["a", "b", "c"] ∧
      IsGreatest {members | tangle.Dense 2 members} ["a", "b", "c"].toFinset ∧
      ∃ colors, ofInterference tangle ["r0", "r1", "r2"] = .ok colors ∧
        colors.keys = ["a", "b", "c", "d"] ∧ isValid tangle colors = true := by
  have refused : ofInterference tangle ["r0", "r1"] = .error ["a", "b", "c"] := by decide +kernel
  have greatest := ((ofInterference_core constructed_tangle ["r0", "r1"]).2 (by decide)).2.1 _ refused
  refine ⟨refused, greatest.2.1, ?_⟩
  cases colored : ofInterference tangle ["r0", "r1", "r2"] with
  | ok colors =>
    obtain ⟨keys, _, _, isValid⟩ :=
      (ofInterference_core constructed_tangle ["r0", "r1", "r2"]).1 colors colored
    exact ⟨colors, rfl, keys.trans (by decide +kernel), isValid⟩
  | error left =>
    have succeeds : (ofInterference tangle ["r0", "r1", "r2"]).isOk = true := by decide +kernel
    rw [colored] at succeeds
    cases succeeds

end Coloring

end Midend
