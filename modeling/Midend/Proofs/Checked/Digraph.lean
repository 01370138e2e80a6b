import Midend.Proofs.Checked.Basic
import Midend.Proofs.Digraph.Traversal

/-! # Checked traversals

Bit sets assert that an index is below their capacity, and then look for its word. The depth-first
traversals mark every node before it is listed, and the nodes are those of the graph: their checks
pass (`Checked.reachable?_eq`, `Checked.postorder?_eq`), and the steps that they are given suffice. -/

namespace Midend

namespace BitSet

/-- Adding a member changes nothing. -/
theorem Fits.insert_of_mem {set : BitSet} (fits : set.Fits) {index : Nat} (member : index ∈ set) :
    set.insert index = set := by
  refine (fits.insert index).ext fits (capacity_insert ..) fun other => ?_
  rw [fits.mem_insert (lt_of_mem member)]
  exact or_iff_right_of_imp fun same => same ▸ member

end BitSet

namespace Checked

open Midend.Digraph BitSet

/-! ## Bit sets -/

/-- The word of an index, which must be below the capacity. -/
def wordOf? (set : BitSet) (index : Nat) : Option UInt64 :=
  if index < set.capacity then set.words[index / wordBits]? else none

/-- Whether an index is a member; that of an index below the capacity is read in its word. -/
def hasBit? (set : BitSet) (index : Nat) : Option Bool :=
  if index < set.capacity then
    set.words[index / wordBits]?.map fun word => testBit word (index % wordBits)
  else some false

/-- Adds an index, and tells whether it was absent. -/
def insertBit? (set : BitSet) (index : Nat) : Option (Bool × BitSet) := do
  let word ← wordOf? set index
  let words ← put? set.words (index / wordBits) (word ||| maskBit (index % wordBits))
  return (!testBit word (index % wordBits), { set with words })

/-- Removes an index, and tells whether it was present. -/
def removeBit? (set : BitSet) (index : Nat) : Option (Bool × BitSet) := do
  let word ← wordOf? set index
  let words ← put? set.words (index / wordBits) (word &&& ~~~ maskBit (index % wordBits))
  return (testBit word (index % wordBits), { set with words })

variable {set : BitSet} {index : Nat}

/-- An index below the capacity has a word, in which its bit is. -/
theorem exists_wordOf? (fits : set.Fits) (below : index < set.capacity) :
    ∃ word, index / wordBits < set.words.length ∧ set.words[index / wordBits]? = some word ∧
      wordOf? set index = some word ∧ set.contains index = testBit word (index % wordBits) := by
  have inside : index / wordBits < set.words.length := fits.word_lt below
  have found : set.words[index / wordBits]? = some set.words[index / wordBits] :=
    List.getElem?_eq_getElem inside
  refine ⟨_, inside, found, (if_pos below).trans found, ?_⟩
  rw [contains, found, decide_eq_true below, Bool.true_and]

/-- The check of a membership test passes. -/
theorem hasBit?_eq (fits : set.Fits) (index : Nat) : hasBit? set index = some (set.contains index) := by
  rw [hasBit?]
  split
  · rename_i below
    obtain ⟨word, _, found, _, held⟩ := exists_wordOf? fits below
    rw [found, held]
    rfl
  · rename_i above
    rw [contains, decide_eq_false above, Bool.false_and]

/-- The checks of an insertion pass. -/
theorem insertBit?_eq (fits : set.Fits) (below : index < set.capacity) :
    insertBit? set index = some (!set.contains index, set.insert index) := by
  obtain ⟨word, inside, found, isWord, held⟩ := exists_wordOf? fits below
  rw [insertBit?, isWord, some_bind, put?_eq inside, held,
    BitSet.insert, if_pos below, List.modify_eq_set_getElem?, found]
  rfl

/-- The checks of a removal pass. -/
theorem removeBit?_eq (fits : set.Fits) (below : index < set.capacity) :
    removeBit? set index = some (set.contains index, set.erase index) := by
  obtain ⟨word, inside, found, isWord, held⟩ := exists_wordOf? fits below
  rw [removeBit?, isWord, some_bind, put?_eq inside, held,
    BitSet.erase, if_pos below, List.modify_eq_set_getElem?, found]
  rfl

/-- Adds indices one after another. -/
def insertBits? (set : BitSet) (indices : List Nat) : Option BitSet :=
  indices.foldlM (fun set index => (insertBit? set index).map Prod.snd) set

/-- The checks of several insertions pass. -/
theorem insertBits?_eq (fits : set.Fits) {indices : List Nat}
    (below : ∀ index ∈ indices, index < set.capacity) :
    insertBits? set indices = some (indices.foldl BitSet.insert set) := by
  refine (foldlM_eq_some (fun state => state.Fits ∧ state.capacity = set.capacity) ⟨fits, rfl⟩
    fun state fitting index member => ⟨?_, fitting.1.insert index, ?_⟩).1
  · rw [insertBit?_eq fitting.1 (fitting.2 ▸ below index member)]
    rfl
  · rw [capacity_insert, fitting.2]

/-! ## Discovery order -/

/-- Marks nodes and stacks those that were unmarked. -/
def pushUnmarked? (marked : BitSet) (stack : List Nat) : List Nat → Option (BitSet × List Nat)
  | [] => some (marked, stack)
  | target :: rest => do
    let (absent, marked) ← insertBit? marked target
    pushUnmarked? marked (if absent then target :: stack else stack) rest

/-- Takes nodes from the stack until it is empty, in at most `budget` steps. -/
def discoverFrom? (graph : Digraph) : (budget : Nat) → BitSet → List Nat → Option (List Nat)
  | _, _, [] => some []
  | 0, _, _ :: _ => none
  | budget + 1, marked, node :: stack => do
    let (marked, stack) ← pushUnmarked? marked stack (graph.successors node).reverse
    let rest ← discoverFrom? graph budget marked stack
    return node :: rest

/-- The set of nodes reachable from a start node. -/
def reachable? (graph : Digraph) (start : Nat) : Option BitSet :=
  if start < graph.order then do
    let (_, marked) ← insertBit? (.empty graph.order) start
    insertBits? (.empty graph.order) (← discoverFrom? graph graph.order marked [start])
  else some (.empty graph.order)

variable {graph : Digraph}

/-- The checks on pushing nodes pass. -/
theorem pushUnmarked?_eq {marked : BitSet} (fits : marked.Fits) {targets : List Nat}
    (below : ∀ target ∈ targets, target < marked.capacity) (stack : List Nat) :
    pushUnmarked? marked stack targets = some (pushUnmarked marked stack targets) := by
  induction targets generalizing marked stack with
  | nil => rfl
  | cons target rest restIH =>
    rw [List.forall_mem_cons] at below
    rw [pushUnmarked?, insertBit?_eq fits below.1, some_bind,
      pushUnmarked]
    dsimp only
    cases seen : marked.contains target with
    | true =>
      rw [fits.insert_of_mem seen]
      exact restIH fits below.2 stack
    | false =>
      have capacity := marked.capacity_insert target
      exact restIH (fits.insert target) (fun other member => capacity ▸ below.2 other member) _

/-- The checks of a discovery pass, if the budget covers the stack and the unmarked nodes. -/
theorem discoverFrom?_eq {budget : Nat} {marked : BitSet} {stack : List Nat} (fits : marked.Fits)
    (capacity : marked.capacity = graph.order)
    (enough : stack.length + graph.openWeight (fun _ => 1) marked ≤ budget) :
    discoverFrom? graph budget marked stack = some (graph.discoverFrom budget marked stack) := by
  induction budget generalizing marked stack with
  | zero =>
    obtain rfl : stack = [] := List.length_eq_zero_iff.1 (by omega)
    rfl
  | succ budget budgetIH =>
    cases stack with
    | nil => rfl
    | cons node stack =>
      have below : ∀ target ∈ (graph.successors node).reverse, target < graph.order :=
        fun target member => successors_lt (List.mem_reverse.1 member)
      have after := graph.pushed fits capacity stack (graph.successors node).reverse below
      have work := after.work
      rw [List.length_cons] at enough
      rw [discoverFrom?, pushUnmarked?_eq fits (capacity ▸ below), some_bind, discoverFrom]
      dsimp only
      rw [budgetIH after.fits (after.capacity.trans capacity) (by omega)]
      rfl

/-- The checks of a search for reachable nodes pass. -/
theorem reachable?_eq (graph : Digraph) (start : Nat) :
    reachable? graph start = some (graph.reachable start) := by
  rw [reachable?, reachable, discoveryOrder]
  split
  · rename_i below
    have fits := fits_empty graph.order
    have start_work := openWeight_insert (fun _ => 1) fits rfl below (not_mem_empty _ _)
    have empty_work := graph.openWeight_empty fun _ => 1
    rw [← Finset.card_eq_sum_ones, Finset.card_range] at empty_work
    rw [insertBit?_eq fits below, some_bind]
    dsimp only
    rw [discoverFrom?_eq (fits.insert start) (capacity_insert ..)
      (by rw [List.length_singleton]; omega)]
    refine insertBits?_eq fits fun node member => @lt_of_mem_discoveryOrder graph start node ?_
    rwa [discoveryOrder, if_pos below]
  · rfl

/-! ## Post-order -/

/-- Carries out the pending visits until there are none, in at most `budget` steps. -/
def postorderFrom? (graph : Digraph) : (budget : Nat) → BitSet → List Visit → Option (List Nat)
  | _, _, [] => some []
  | 0, _, _ :: _ => none
  | budget + 1, visited, .leave node :: pending => do
    let rest ← postorderFrom? graph budget visited pending
    return node :: rest
  | budget + 1, visited, .enter node :: pending => do
    let (absent, visited) ← insertBit? visited node
    if absent then
      let targets ← (graph.successors node).filterM fun target =>
        (hasBit? visited target).map fun seen => !seen
      postorderFrom? graph budget visited (targets.map .enter ++ .leave node :: pending)
    else postorderFrom? graph budget visited pending

/-- The depth-first post-order of the nodes reachable from a start node. -/
def postorder? (graph : Digraph) (start : Nat) : Option (List Nat) :=
  if start < graph.order then
    postorderFrom? graph (graph.order + graph.edges.length + 1) (.empty graph.order) [.enter start]
  else some []

/-- The checks of a traversal pass, if the budget covers the pending visits and those that the
unvisited nodes and their edges will ask for. -/
theorem postorderFrom?_eq {budget : Nat} {visited : BitSet} {pending : List Visit}
    (fits : visited.Fits) (capacity : visited.capacity = graph.order)
    (below : ∀ node, .enter node ∈ pending → node < graph.order)
    (enough : pending.length +
      graph.openWeight (fun node => (graph.successors node).length + 1) visited ≤ budget) :
    postorderFrom? graph budget visited pending = some (graph.postorderFrom budget visited pending) := by
  induction budget generalizing visited pending with
  | zero =>
    obtain rfl : pending = [] := List.length_eq_zero_iff.1 (by omega)
    rfl
  | succ budget budgetIH =>
    match pending with
    | [] => rfl
    | .leave node :: pending =>
      rw [List.length_cons] at enough
      rw [postorderFrom?, postorderFrom, budgetIH fits capacity
        (fun other member => below other (List.mem_cons_of_mem _ member)) (by omega)]
      rfl
    | .enter node :: pending =>
      have nodeBelow := below node (List.mem_cons_self ..)
      have restBelow : ∀ other, .enter other ∈ pending → other < graph.order :=
        fun other member => below other (List.mem_cons_of_mem _ member)
      rw [List.length_cons] at enough
      rw [postorderFrom?, insertBit?_eq fits (capacity ▸ nodeBelow), some_bind, postorderFrom]
      dsimp only
      -- A node that is entered for the first time pays for its own leaving and for entering its
      -- targets.
      cases seen : visited.contains node with
      | true =>
        rw [fits.insert_of_mem seen]
        exact budgetIH fits capacity restBelow (by omega)
      | false =>
        have weight := openWeight_insert (fun node => (graph.successors node).length + 1) fits
          capacity nodeBelow fun member => Bool.false_ne_true (seen.symm.trans member)
        have fewer := List.length_filter_le (fun target => !(visited.insert node).contains target)
          (graph.successors node)
        have tests : ∀ target ∈ graph.successors node, ((hasBit? (visited.insert node) target).map
            fun seen => !seen) = some !(visited.insert node).contains target := by
          intro target _
          rw [hasBit?_eq (fits.insert node)]
          rfl
        rw [Bool.not_false, if_pos rfl, filterM_eq_some tests, some_bind]
        refine budgetIH (fits.insert node) ((capacity_insert ..).trans capacity) ?_ ?_
        · intro other member
          rcases List.mem_append.1 member with isTarget | later
          · obtain ⟨target, kept, same⟩ := List.mem_map.1 isTarget
            cases same
            exact successors_lt (List.mem_filter.1 kept).1
          · exact restBelow other ((List.mem_cons.1 later).resolve_left Visit.noConfusion)
        · rw [List.length_append, List.length_map, List.length_cons]
          omega

/-- The checks of a traversal pass. -/
theorem postorder?_eq (graph : Digraph) (start : Nat) :
    postorder? graph start = some (graph.postorder start) := by
  rw [postorder?, postorder]
  split
  · rename_i below
    have total := graph.openWeight_empty fun node => (graph.successors node).length + 1
    rw [Finset.sum_add_distrib, sum_length_successors, ← Finset.card_eq_sum_ones,
      Finset.card_range] at total
    refine postorderFrom?_eq (fits_empty _) rfl (fun node member => ?_)
      (by rw [List.length_singleton]; omega)
    cases List.mem_singleton.1 member
    exact below
  · rfl

end Checked

end Midend
