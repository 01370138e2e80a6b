import Midend.Proofs.Checked.Dominance
import Midend.Proofs.Dominance.Walk

/-! # Checked lookups in the dominance

A block is looked up by its name, and what is found are rows of tables and names of nodes. A row or
name that is not there would stop a lookup; there always is one, so the frontiers, the children and
the whole dominator tree are found (`Checked.tree?_eq`). A walk down the tree passes its checks if its
visits do (`Checked.walk?_eq`). -/

namespace Midend

namespace Checked

open Dominance

/-! ## Questions by name -/

namespace DominanceTables

/-- The node of a reachable block. -/
def node? (tables : DominanceTables) (name : String) : Option (Option Nat) :=
  match tables.index.get? name with
  | some node => do
    if ← hasBit? tables.base.reachable node then return some node else return none
  | none => some none

/-- Whether a block is reachable. -/
def contains? (tables : DominanceTables) (name : String) : Option Bool := do
  return (← tables.node? name).isSome

/-- The names of nodes. -/
def namesOf? (tables : DominanceTables) (nodes : List Nat) : Option (List String) :=
  nodes.mapM fun node => tables.base.names[node]?

/-- The dominance frontier of a block in ascending order. -/
def frontier? (tables : DominanceTables) (name : String) : Option (List String) := do
  match ← tables.node? name with
  | some node => tables.namesOf? (← tables.frontiers[node]?).toList
  | none => return []

/-- The blocks whose immediate dominator is the given one, in ascending order. -/
def children? (tables : DominanceTables) (name : String) : Option (List String) := do
  match ← tables.node? name with
  | some node => tables.namesOf? (← tables.children[node]?)
  | none => return []

/-- The tree below a block, in which no path may be longer than `depth`. -/
def treeFrom? (tables : DominanceTables) : (depth : Nat) → String → Option Tree
  | 0, _ => none
  | depth + 1, name => do
    let below ← (← tables.children? name).mapM (tables.treeFrom? depth)
    return .node name below

/-- The dominator tree. -/
def tree? (tables : DominanceTables) : Option Tree := do
  tables.treeFrom? tables.base.graph.order (← tables.base.names[tables.base.entry]?)

end DominanceTables

variable {successors : SortedMap String (List String)} {entry : String} {dominance : Dominance}

/-- The check on the node of a name passes. -/
theorem node?_eq (built : Built dominance successors entry) (name : String) :
    (tablesOf dominance).node? name = some (dominance.index? name) := by
  have fits : dominance.reachable.Fits := built.reachable_eq ▸ Digraph.fits_reachable _ _
  rw [DominanceTables.node?, tablesOf, get?_indexOf built.nodup_names, index?]
  cases dominance.names.findIdx? (· == name) with
  | none => rfl
  | some node =>
    dsimp only
    rw [hasBit?_eq fits, some_bind, Option.filter_some]
    cases dominance.reachable.contains node <;> rfl

/-- The check on whether a block is reachable passes. -/
theorem contains?_eq (built : Built dominance successors entry) (name : String) :
    (tablesOf dominance).contains? name = some (dominance.contains name) := by
  rw [DominanceTables.contains?, node?_eq built]
  rfl

/-- Nodes have names. -/
theorem namesOf?_eq (built : Built dominance successors entry) {nodes : List Nat}
    (below : ∀ node ∈ nodes, node < dominance.graph.order) :
    (tablesOf dominance).namesOf? nodes = some (nodes.map dominance.nameOf) :=
  mapM_eq_some fun node member => built.getElem?_nameOf (below node member)

/-- The node of a name is one that is reached. -/
theorem lt_of_index? (built : Built dominance successors entry) {name : String} {node : Nat}
    (found : dominance.index? name = some node) :
    node < dominance.graph.order ∧ node ∈ dominance.reachable.toList := by
  have fits : dominance.reachable.Fits := built.reachable_eq ▸ Digraph.fits_reachable _ _
  have isReachable := (Option.filter_eq_some_iff.1 found).2
  have member := fits.mem_toList.2 (BitSet.contains_iff.1 isReachable)
  exact ⟨lt_of_reachable built member, member⟩

/-- The members of a frontier are nodes. -/
theorem lt_of_frontierNodes {node target : Nat}
    (member : target ∈ (dominance.frontierNodes node).toList) : target < dominance.graph.order := by
  have fits := (BitSet.fits_empty dominance.graph.order).insertAll
    (((dominance.reachable.toList.filter (dominance.dominatesNode node)).flatMap
      dominance.graph.successors).filter fun target =>
        !(target ≠ node && dominance.dominatesNode node target))
  have below := BitSet.lt_of_mem (fits.mem_toList.1 member)
  rwa [BitSet.capacity_insertAll] at below

/-- The checks on the frontier of a block pass. -/
theorem frontier?_name (built : Built dominance successors entry) (name : String) :
    (tablesOf dominance).frontier? name = some (dominance.frontier name) := by
  rw [DominanceTables.frontier?, node?_eq built, some_bind, Dominance.frontier]
  cases found : dominance.index? name with
  | none => rfl
  | some node =>
    obtain ⟨below, reachable⟩ := lt_of_index? built found
    have row : (tablesOf dominance).frontiers[node]? = some (dominance.frontierNodes node) := by
      rw [tablesOf, List.getElem?_map, List.getElem?_range below, Option.map_some,
        if_pos reachable]
    dsimp only
    rw [row, some_bind, namesOf?_eq built fun target => lt_of_frontierNodes]

/-- Children are nodes. -/
theorem lt_of_childNodes (built : Built dominance successors entry) {node child : Nat}
    (member : child ∈ dominance.childNodes node) : child < dominance.graph.order :=
  lt_of_reachable built (List.mem_filter.1 member).1

/-- The checks on the children of a node pass. -/
theorem children?_nameOf (built : Built dominance successors entry) {node : Nat}
    (reached : Reaches dominance.graph.Edge dominance.entry node) :
    (tablesOf dominance).children? (dominance.nameOf node) =
      some ((dominance.childNodes node).map dominance.nameOf) := by
  have below := Digraph.lt_of_reaches built.entry_lt reached
  have found : dominance.index? (dominance.nameOf node) = some node :=
    built.index?_eq_some_iff.2 ⟨below, rfl, (built.reaches_nameOf below).2 reached⟩
  have row : (tablesOf dominance).children[node]? = some (dominance.childNodes node) := by
    rw [tablesOf, List.getElem?_map, List.getElem?_range below, Option.map_some]
  rw [DominanceTables.children?, node?_eq built, some_bind, found]
  dsimp only
  rw [row, some_bind, namesOf?_eq built fun child => lt_of_childNodes built]

/-! ## The tree -/

/-- The checks on the tree below a node pass: a node at the end of a long path has many dominators,
and it has no more than there are nodes. -/
theorem treeFrom?_eq (built : Built dominance successors entry) {depth node : Nat}
    (reached : Reaches dominance.graph.Edge dominance.entry node)
    (deep : dominance.graph.order < depth + Built.depthOf dominance node) :
    (tablesOf dominance).treeFrom? depth (dominance.nameOf node) =
      some (dominance.treeFrom depth node) := by
  induction depth generalizing node with
  | zero =>
    have := built.depthOf_le (Digraph.lt_of_reaches built.entry_lt reached)
    omega
  | succ depth depthIH =>
    have each : ∀ child ∈ dominance.childNodes node,
        ((tablesOf dominance).treeFrom? depth ∘ dominance.nameOf) child =
          some (dominance.treeFrom depth child) := by
      intro child member
      have isChild := built.mem_childNodes.1 member
      have := built.depthOf_immediate isChild
      exact depthIH isChild.strict.2.reaches (by omega)
    rw [DominanceTables.treeFrom?, children?_nameOf built reached, some_bind, List.mapM_map,
      mapM_eq_some each]
    rfl

/-- The checks on the dominator tree pass. -/
theorem tree?_eq (built : Built dominance successors entry) :
    (tablesOf dominance).tree? = some dominance.tree := by
  have reached : Reaches dominance.graph.Edge dominance.entry dominance.entry := .refl _ _
  have own : dominance.entry ∈ (setAt dominance.dominatorSets dominance.entry).toList :=
    (built.mem_dominatorList built.entry_lt).2 (.refl reached)
  have deep : 0 < Built.depthOf dominance dominance.entry := List.length_pos_of_mem own
  have isEntry := built.getElem?_nameOf built.entry_lt
  rw [DominanceTables.tree?]
  show (dominance.names[dominance.entry]? >>= _) = _
  rw [isEntry, some_bind]
  exact treeFrom?_eq built reached (Nat.lt_add_of_pos_right deep)

/-! ## Walks -/

section Walks

variable {σ σ' τ : Type}

mutual

/-- Visits the blocks of a tree; what a block hands down goes to the trees below it. -/
def walk? (visit? : String → τ → σ → Checked (τ × σ)) : Tree → τ → σ → Checked σ
  | .node name children, inherited, state => do
    let (inherited, state) ← visit? name inherited state
    walkAll? visit? children inherited state

/-- Visits the blocks of several trees that start alike. -/
def walkAll? (visit? : String → τ → σ → Checked (τ × σ)) : List Tree → τ → σ → Checked σ
  | [], _, state => return state
  | tree :: rest, inherited, state => do
    let state ← walk? visit? tree inherited state
    walkAll? visit? rest inherited state

end

variable {visit? : String → τ → σ' → Checked (τ × σ')}
  {visit : String → τ → σ → Except Error (τ × σ)} {into : σ → σ'}

/-- Visits that pass their checks from any state that has an invariant, and keep it. -/
def Visits (visit? : String → τ → σ' → Checked (τ × σ'))
    (visit : String → τ → σ → Except Error (τ × σ)) (into : σ → σ') (keeps : σ → Prop) : Prop :=
  ∀ name inherited state, keeps state →
    visit? name inherited (into state) = ofExcept ((visit name inherited state).map fun visited =>
      (visited.1, into visited.2)) ∧
    ∀ visited, visit name inherited state = .ok visited → keeps visited.2

mutual

/-- The checks of a walk down a tree pass. -/
theorem walk?_eq {keeps : σ → Prop} (visits : Visits visit? visit into keeps) :
    (tree : Tree) → (inherited : τ) → (state : σ) → keeps state →
      walk? visit? tree inherited (into state) =
        ofExcept ((tree.walk visit inherited state).map into) ∧
      ∀ last, tree.walk visit inherited state = .ok last → keeps last
  | .node name children, inherited, state, begins => by
    obtain ⟨passes, kept⟩ := visits name inherited state begins
    rw [walk?, Tree.walk]
    constructor
    · exact bind_map_eq passes fun visited isVisited =>
        (walkAll?_eq visits children visited.1 visited.2 (kept visited isVisited)).1
    · intro last walked
      obtain ⟨visited, isVisited, walked⟩ := Attempt.bind_eq_ok.1 walked
      exact (walkAll?_eq visits children visited.1 visited.2 (kept visited isVisited)).2 last walked

/-- The checks of a walk down several trees pass. -/
theorem walkAll?_eq {keeps : σ → Prop} (visits : Visits visit? visit into keeps) :
    (trees : List Tree) → (inherited : τ) → (state : σ) → keeps state →
      walkAll? visit? trees inherited (into state) =
        ofExcept ((Tree.walkAll visit trees inherited state).map into) ∧
      ∀ last, Tree.walkAll visit trees inherited state = .ok last → keeps last
  | [], inherited, state, begins => by
    refine ⟨rfl, fun last walked => ?_⟩
    obtain rfl := Except.ok.inj walked
    exact begins
  | tree :: rest, inherited, state, begins => by
    obtain ⟨passes, kept⟩ := walk?_eq visits tree inherited state begins
    rw [walkAll?, Tree.walkAll]
    constructor
    · exact bind_map_eq passes fun next isNext =>
        (walkAll?_eq visits rest inherited next (kept next isNext)).1
    · intro last walked
      obtain ⟨next, isNext, walked⟩ := Attempt.bind_eq_ok.1 walked
      exact (walkAll?_eq visits rest inherited next (kept next isNext)).2 last walked

end

end Walks

end Checked

end Midend
