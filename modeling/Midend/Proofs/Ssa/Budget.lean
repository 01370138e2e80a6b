import Mathlib.Algebra.GroupWithZero.Nat
import Midend.Proofs.Ssa.Establish

/-! # Keys for single assignment

The conversion takes one key for each merge and one for each undefined value, and a block has one of
either for a variable at most. It fails only if there are not that many keys left
(`Ssa.construct_cases`). -/

namespace Midend

namespace Ssa

/-! ## Undefined values -/

/-- Merges with the variables of others are for the same variables. -/
theorem areVars_of_map_eq {vars : List String} {left right : List PendingPhi}
    (same : left.map PendingPhi.var = right.map PendingPhi.var)
    (areVars : ∀ phi ∈ right, phi.var ∈ vars) : ∀ phi ∈ left, phi.var ∈ vars := by
  intro phi member
  have isVar : phi.var ∈ left.map PendingPhi.var := List.mem_map_of_mem member
  rw [same] at isVar
  obtain ⟨original, inside, sameVar⟩ := List.mem_map.1 isVar
  exact sameVar ▸ areVars original inside

/-- Undefined values, one a variable, of some variables. -/
structure Undefs.Within (vars : List String) (undefs : Undefs) : Prop where
  /-- There is a variable for each of them. -/
  length_le : undefs.instrs.length ≤ undefs.byVar.keys.length
  /-- They stand for some of the variables. -/
  subset : undefs.byVar.keys ⊆ vars

namespace Undefs.Within

variable {vars : List String} {undefs : Undefs}

/-- At first there are none. -/
theorem empty (vars : List String) : ({} : Undefs).Within vars := ⟨Nat.le_refl _, nofun⟩

/-- There are no more undefined values than variables. -/
theorem length_instrs (within : undefs.Within vars) : undefs.instrs.length ≤ vars.length :=
  within.length_le.trans (undefs.byVar.nodup_keys.subperm within.subset).length_le

/-- Reading a variable at the end of a block makes an undefined value for it at most. -/
theorem valueAtEnd (within : undefs.Within vars) (scope : Scope) {phi : PendingPhi}
    (isVar : phi.var ∈ vars) (names : NameSupply) :
    (Ssa.valueAtEnd scope phi undefs names).2.1.Within vars := by
  unfold Ssa.valueAtEnd
  split
  · exact within
  · exact within
  · rename_i unmade
    dsimp only
    have keys : ∀ name, ∀ key, key ∈ (undefs.byVar.insert phi.var name).keys ↔
        key = phi.var ∨ key ∈ undefs.byVar.keys := by
      intro name key
      rw [SortedMap.mem_keys, SortedMap.mem_keys]
      simp only [SortedMap.get?_insert_eq]
      split <;> simp [*]
    have new : phi.var ∉ undefs.byVar.keys := by
      rw [SortedMap.mem_keys, unmade]
      simp
    refine ⟨?_, fun key isKey => ?_⟩
    · have more := ((List.nodup_cons.2 ⟨new, undefs.byVar.nodup_keys⟩).subperm fun key isKey =>
        (keys (names.fresh (phi.var ++ ".undef")).1 key).2 (List.mem_cons.1 isKey)).length_le
      have before := within.length_le
      rw [List.length_cons] at more
      rw [List.length_append, List.length_singleton]
      exact (Nat.succ_le_succ before).trans more
    · rcases (keys _ key).1 isKey with rfl | isOld
      · exact isVar
      · exact within.subset isOld

/-- The merges of one successor read their own variables only, and keep them. -/
theorem fillPhis (block : String) (scope : Scope) {pending : List PendingPhi}
    (areVars : ∀ phi ∈ pending, phi.var ∈ vars) {undefs : Undefs} (within : undefs.Within vars)
    (names : NameSupply) :
    (Ssa.fillPhis block scope pending undefs names).2.1.Within vars ∧
      (Ssa.fillPhis block scope pending undefs names).1.map PendingPhi.var =
        pending.map PendingPhi.var := by
  induction pending generalizing undefs names with
  | nil => exact ⟨within, rfl⟩
  | cons phi rest restIH =>
    obtain ⟨later, same⟩ := restIH (fun other member => areVars other (List.mem_cons_of_mem _ member))
      (within.valueAtEnd scope (areVars phi (List.mem_cons_self ..)) names)
      (Ssa.valueAtEnd scope phi undefs names).2.2
    rw [Ssa.fillPhis]
    exact ⟨later, congrArg (phi.var :: ·) same⟩

/-- The merges of the successors read their own variables only, and keep them. -/
theorem fillSuccessors (block : String) (scope : Scope) (successors : List String) {phis : PendingPhis}
    (areVars : ∀ name, ∀ phi ∈ phis.getD name [], phi.var ∈ vars) {undefs : Undefs}
    (within : undefs.Within vars) (names : NameSupply) :
    (Ssa.fillSuccessors block scope successors phis undefs names).2.1.Within vars ∧
      ∀ name, ((Ssa.fillSuccessors block scope successors phis undefs names).1.getD name []).map
        PendingPhi.var = (phis.getD name []).map PendingPhi.var := by
  induction successors generalizing phis undefs names with
  | nil => exact ⟨within, fun _ => rfl⟩
  | cons successor rest restIH =>
    rw [Ssa.fillSuccessors]
    split
    · rename_i pending found
      have isPending : phis.getD successor [] = pending := by rw [SortedMap.getD, found]; rfl
      obtain ⟨here, same⟩ := fillPhis block scope (isPending ▸ areVars successor) within names
      have kept : ∀ name, ((phis.insert successor
          (Ssa.fillPhis block scope pending undefs names).1).getD name []).map PendingPhi.var =
            (phis.getD name []).map PendingPhi.var := by
        intro name
        rw [SortedMap.getD, SortedMap.get?_insert_eq]
        split
        · rename_i isSuccessor
          rw [isSuccessor, isPending]
          exact same
        · rfl
      have stillVars : ∀ name, ∀ phi ∈ (phis.insert successor
          (Ssa.fillPhis block scope pending undefs names).1).getD name [], phi.var ∈ vars :=
        fun name => areVars_of_map_eq (kept name) (areVars name)
      obtain ⟨later, others⟩ := restIH stillVars here
        (Ssa.fillPhis block scope pending undefs names).2.2
      exact ⟨later, fun name => (others name).trans (kept name)⟩
    · exact restIH areVars within names

end Undefs.Within

/-! ## The walk -/

/-- Naming merges keeps their variables. -/
theorem map_var_namePhis (phis : List PendingPhi) (scope : Scope) (names : NameSupply) :
    (namePhis phis scope names).1.map PendingPhi.var = phis.map PendingPhi.var := by
  induction phis generalizing scope names with
  | nil => rfl
  | cons phi rest restIH =>
    rw [namePhis]
    exact congrArg (phi.var :: ·) (restIH _ _)

/-- Renaming keeps the number of instructions. -/
theorem length_renameInstrs (instrs : List Instr) (scope : Scope) (names : NameSupply) :
    (renameInstrs instrs scope names).1.length = instrs.length := by
  induction instrs generalizing scope names with
  | nil => rfl
  | cons instr rest restIH =>
    rw [renameInstrs]
    dsimp only
    split
    · exact congrArg Nat.succ (restIH _ _)
    · exact congrArg Nat.succ (restIH _ _)

/-- A state of the walk, given the number of visits to come, each of which may take one key a
variable. -/
structure Frugal (graph : FlowGraph) (vars : List String) (limit left : Nat) (state : Renaming) :
    Prop where
  /-- Blocks keep their names. -/
  names_eq : state.graph.names = graph.names
  /-- Merges are for some of the variables. -/
  areVars : ∀ name, ∀ phi ∈ state.phis.getD name [], phi.var ∈ vars
  /-- There are keys left for the visits to come. -/
  nextKey_le : state.graph.nextKey + left * vars.length ≤ limit
  /-- A key is taken for a new instruction. -/
  length_instrs : state.graph.instrs.length + graph.nextKey ≤
    graph.instrs.length + state.graph.nextKey

/-- The merges that the end of a block reads are for some of the variables. -/
theorem areVars_named {vars : List String} {phis : PendingPhis}
    (areVars : ∀ name, ∀ phi ∈ phis.getD name [], phi.var ∈ vars) (name : String) (scope : Scope)
    (names : NameSupply) :
    ∀ other, ∀ phi ∈ (if (namePhis (phis.getD name []) scope names).1.isEmpty then phis
      else phis.insert name (namePhis (phis.getD name []) scope names).1).getD other [],
      phi.var ∈ vars := by
  intro other
  split
  · exact areVars other
  · rw [SortedMap.getD, SortedMap.get?_insert_eq]
    split
    · exact areVars_of_map_eq (map_var_namePhis ..) (areVars name)
    · exact areVars other

/-- A visit of a block keeps within its keys, or there are not enough of them. -/
theorem Frugal.renameBlock {graph : FlowGraph} {vars : List String} {limit left : Nat}
    {state : Renaming} (frugal : Frugal graph vars limit (left + 1) state)
    (nodup : graph.names.Nodup) {name : String} (member : name ∈ graph.names) (scope : Scope) :
    (∀ out next, renameBlock name scope state = .ok (out, next) →
      Frugal graph vars limit left next) ∧
      ∀ error, Ssa.renameBlock name scope state = .error error →
        error = .keysExhausted ∧ keyLimit ≤ limit := by
  have enough := frugal.nextKey_le
  rw [Nat.add_mul, Nat.one_mul] at enough
  constructor
  · intro out next renamed
    obtain ⟨record, visited, _⟩ := visited_of_renameBlock renamed
    obtain ⟨_, pending, mid, block, supply, undefs, isNamed, _, found, isRenamed, isFilled, _,
      rekeyed, _, graph_eq⟩ := visited
    have isPending : pending = (namePhis (state.phis.getD name []) scope state.names).1 := by
      rw [isNamed]
    subst isPending
    -- At most one undefined value is made for each variable, whatever the successors are.
    obtain ⟨within, vars_eq⟩ := Undefs.Within.fillSuccessors name record.out
      ({ block with instrs := record.body } : Block).successors
      (areVars_named frugal.areVars name scope state.names) (.empty vars) supply
    rw [isFilled] at within vars_eq
    have few : undefs.instrs.length ≤ vars.length := within.length_instrs
    have names_eq : next.graph.names = state.graph.names := by
      rw [graph_eq, FlowGraph.names, FlowGraph.names, List.map_map]
      refine List.map_congr_left fun block _ => ?_
      rw [Function.comp_apply]
      split <;> rfl
    have nodupNames : state.graph.names.Nodup := by
      rw [frugal.names_eq]
      exact nodup
    have longer := @FlowGraph.length_instrs_map _ nodupNames name record.finish
      undefs.instrs.length fun other isOther same => by
        have isBlock := (FlowGraph.find?_eq_some_iff nodupNames).2 ⟨isOther, same⟩
        obtain rfl := Option.some.inj (found.symm.trans isBlock)
        have length := length_renameInstrs block.instrs record.mid mid
        rw [isRenamed] at length
        rw [Renamed.finish, Block.length_insertAt, ← rekeyed.length_eq]
        exact Nat.add_le_add_right (Nat.le_of_eq length) _
    refine ⟨names_eq.trans frugal.names_eq, fun other => ?_, ?_, ?_⟩
    · exact areVars_of_map_eq (vars_eq other) (areVars_named frugal.areVars name scope state.names other)
    · rw [graph_eq]
      dsimp only
      omega
    · have before := frugal.length_instrs
      rw [graph_eq, FlowGraph.instrs]
      rw [FlowGraph.instrs] at before
      dsimp only
      omega
  · -- The block is there, so only giving out keys can fail.
    intro error failed
    rw [Ssa.renameBlock] at failed
    rcases Attempt.bind_eq_error.1 failed with failed | ⟨block, _, failed⟩
    · rw [← frugal.names_eq] at member
      obtain ⟨block, found⟩ := FlowGraph.exists_find?_iff.2 member
      rw [FlowGraph.block, found] at failed
      cases failed
    · rcases Attempt.bind_eq_error.1 failed with failed | ⟨_, _, failed⟩
      · obtain ⟨exhausted, many⟩ := FlowGraph.freshKeys_eq_error failed
        have few := fun out successors supply => (Undefs.Within.fillSuccessors name out successors
          (areVars_named frugal.areVars name scope state.names) (.empty vars) supply).1.length_instrs
        refine ⟨exhausted, many.trans ((Nat.add_le_add_left (few _ _ _) _).trans ?_)⟩
        change state.graph.nextKey + _ ≤ limit
        omega
      · cases failed

/-! ## The merges -/

/-- Merges are inserted unless keys run out. -/
theorem insertPhis_cases {graph : FlowGraph} (nodup : graph.names.Nodup)
    (list : List (String × List PendingPhi)) :
    (∃ after log, insertPhis graph list = .ok (after, log) ∧ after.names = graph.names ∧
      after.nextKey = graph.nextKey + (list.map fun entry => entry.2.length).sum ∧
      after.instrs.length ≤ graph.instrs.length + (list.map fun entry => entry.2.length).sum) ∨
    (insertPhis graph list = .error .keysExhausted ∧
      keyLimit ≤ graph.nextKey + (list.map fun entry => entry.2.length).sum) := by
  induction list generalizing graph with
  | nil => exact .inl ⟨graph, [], rfl, rfl, rfl, Nat.le_refl _⟩
  | cons entry rest restIH =>
    obtain ⟨name, phis⟩ := entry
    rw [insertPhis, List.map_cons, List.sum_cons]
    change (∃ after log, ((graph.freshKeys (phis.map PendingPhi.toInstr)) >>= _) = _ ∧ _ ∧
      _ = _ + (phis.length + _) ∧ _ ≤ _ + (phis.length + _)) ∨
        ((graph.freshKeys (phis.map PendingPhi.toInstr)) >>= _) = _ ∧ _ ≤ _ + (phis.length + _)
    rcases graph.freshKeys_cases (phis.map PendingPhi.toInstr) with
      ⟨keyed, given, rekeyed⟩ | ⟨failed, many⟩
    · rw [List.length_map] at given
      have count : keyed.length = phis.length := by
        rw [← rekeyed.length_eq, List.length_map]
      -- The flow graph after the merges of the first block are in place.
      let middle := ({ graph with nextKey := graph.nextKey + phis.length } : FlowGraph).modifyBlock
        name fun block => block.insertAt 0 keyed
      have names_eq : middle.names = graph.names :=
        FlowGraph.names_modifyBlock _ (fun block => block.insertAt 0 keyed) (fun _ => rfl) name
      have longer : middle.instrs.length ≤ graph.instrs.length + phis.length :=
        FlowGraph.length_instrs_map nodup name (fun block => block.insertAt 0 keyed)
          fun block _ _ => by rw [Block.length_insertAt, count]
      rw [given, Attempt.ok_bind]
      rcases @restIH middle (by rwa [names_eq]) with
        ⟨after, log, inserted, sameNames, nextKey_eq, fewer⟩ | ⟨failed, many⟩
      · change after.nextKey = graph.nextKey + phis.length + _ at nextKey_eq
        refine .inl ⟨after, _, by dsimp only; rw [inserted]; rfl, sameNames.trans names_eq, by omega,
          by omega⟩
      · change keyLimit ≤ graph.nextKey + phis.length + _ at many
        exact .inr ⟨by dsimp only; rw [failed]; rfl, by omega⟩
    · rw [List.length_map] at many
      exact .inr ⟨by rw [failed]; rfl, by omega⟩

/-! ## The conversion -/

/-- A sum over distinct keys of numbers up to a bound, all zero but at some keys. -/
theorem sum_le_of_support {keys support : List String} (nodup : keys.Nodup) {number : String → Nat}
    {bound : Nat} (bounded : ∀ key, number key ≤ bound)
    (supported : ∀ key ∈ keys, number key ≠ 0 → key ∈ support) :
    (keys.map number).sum ≤ support.length * bound := by
  have kept : (keys.filter fun key => number key ≠ 0).length ≤ support.length := by
    refine ((nodup.sublist List.filter_sublist).subperm fun key member => ?_).length_le
    obtain ⟨inside, nonzero⟩ := List.mem_filter.1 member
    exact supported key inside (by simpa using nonzero)
  refine le_trans ?_ (Nat.mul_le_mul_right bound kept)
  clear kept nodup supported
  induction keys with
  | nil => exact Nat.zero_le _
  | cons key rest restIH =>
    have here := bounded key
    rw [List.map_cons, List.sum_cons, List.filter_cons]
    split
    · rw [List.length_cons, Nat.add_mul]
      omega
    · rename_i zero
      have zero : number key = 0 := by simpa using zero
      omega

/-- The most keys that the conversion of a flow graph may take. -/
def keyDemand (graph : FlowGraph) : Nat :=
  2 * (graph.blocks.length * (graph.params.length + graph.instrs.length))

/-- There is a write for each parameter and for each instruction at most. -/
theorem length_writes_le (graph : FlowGraph) :
    (writes graph).length ≤ graph.params.length + graph.instrs.length := by
  rw [writes, List.length_append, List.length_map, FlowGraph.instrs]
  refine Nat.add_le_add_left ?_ _
  induction graph.blocks with
  | nil => exact Nat.le_refl _
  | cons block rest restIH =>
    rw [List.flatMap_cons, List.flatMap_cons, List.length_append, List.length_append]
    exact Nat.add_le_add (List.length_filterMap_le ..) restIH

/-- A block needs no more merges than there are writes. -/
theorem length_placed_le (graph : FlowGraph) (dominance : Dominance) (name : String) :
    ((placePhis graph dominance).getD name []).length ≤ (writes graph).length := by
  rw [← List.length_map PendingPhi.var, ← @List.length_map _ _ (writes graph) Prod.fst]
  refine ((nodup_placed_vars graph dominance name).subperm fun var member => ?_).length_le
  obtain ⟨phi, isPlaced, rfl⟩ := List.mem_map.1 member
  obtain ⟨writer, ty, isWrite⟩ := exists_writes_of_placed isPlaced
  exact List.mem_map.2 ⟨_, isWrite, rfl⟩

/-- The most keys that the walk and the merges of a flow graph may take, each: one for each write
at each block. -/
def mergeDemand (graph : FlowGraph) : Nat := graph.blocks.length * (writes graph).length

/-- The blocks that are left need no more keys than there were to take. -/
theorem mergeDemand_le {graph after : FlowGraph} (isPruned : FlowGraph.Pruned graph after) :
    2 * mergeDemand after ≤ keyDemand graph := by
  have fewInstrs : after.instrs.length ≤ graph.instrs.length :=
    (isPruned.sublist.flatMap Block.instrs).length_le
  refine Nat.mul_le_mul_left 2
    (Nat.mul_le_mul isPruned.sublist.length_le ((length_writes_le after).trans ?_))
  rw [isPruned.params_eq]
  omega

section Tree

variable {graph : FlowGraph} {dominance : Dominance}

/-- What is visited is a block. -/
theorem mem_names_of_mem_preorder (wellFormed : graph.WellFormed)
    (built : dominance.Built graph.successorMap graph.entryName) {name : String}
    (member : name ∈ dominance.tree.preorder) : name ∈ graph.names := by
  have reached := (built.tree_spec.1 name).1 member
  rw [FlowGraph.succeeds_successorMap wellFormed.nodup_names] at reached
  exact wellFormed.mem_names_of_reachable reached

/-- There are no more visits than blocks. -/
theorem length_preorder_le (wellFormed : graph.WellFormed)
    (built : dominance.Built graph.successorMap graph.entryName) :
    dominance.tree.preorder.length ≤ graph.blocks.length := by
  rw [← List.length_map Block.name]
  exact (built.tree_spec.2.1.subperm fun _ member =>
    mem_names_of_mem_preorder wellFormed built member).length_le

/-- The walk down the dominator tree succeeds unless keys run out. -/
theorem renameTree_cases (wellFormed : graph.WellFormed)
    (built : dominance.Built graph.successorMap graph.entryName) :
    (∃ last, renameTree dominance.tree (startScope graph)
        { graph, phis := placePhis graph dominance, names := .ofGraph graph } = .ok last ∧
      last.graph.names = graph.names ∧
      last.graph.nextKey ≤ graph.nextKey + mergeDemand graph ∧
      last.graph.instrs.length + graph.nextKey ≤ graph.instrs.length + last.graph.nextKey) ∨
    (renameTree dominance.tree (startScope graph)
        { graph, phis := placePhis graph dominance, names := .ofGraph graph } =
        .error .keysExhausted ∧
      keyLimit ≤ graph.nextKey + mergeDemand graph) := by
  rw [renameTree_eq_walk]
  obtain ⟨keeps, fails⟩ := @Dominance.Tree.walk_cases _ _ renameBlock (fun _ => True)
    (Frugal graph ((writes graph).map Prod.fst) (graph.nextKey + mergeDemand graph))
    (fun error => error = .keysExhausted ∧ keyLimit ≤ graph.nextKey + mergeDemand graph)
    dominance.tree (startScope graph)
    { graph, phis := placePhis graph dominance, names := .ofGraph graph } 0
    (fun name member scope state left _ frugal => by
      obtain ⟨keeps, fails⟩ := frugal.renameBlock wellFormed.nodup_names
        (mem_names_of_mem_preorder wellFormed built member) scope
      exact ⟨fun out next renamed => ⟨trivial, keeps out next renamed⟩, fails⟩) trivial
    ⟨rfl, fun name phi isPlaced => by
      obtain ⟨writer, ty, isWrite⟩ := exists_writes_of_placed isPlaced
      exact List.mem_map.2 ⟨_, isWrite, rfl⟩, by
        rw [List.length_map, Nat.zero_add]
        exact Nat.add_le_add_left
          (Nat.mul_le_mul_right _ (length_preorder_le wellFormed built)) _, Nat.le_refl _⟩
  cases walked : dominance.tree.walk renameBlock (startScope graph)
      { graph, phis := placePhis graph dominance, names := .ofGraph graph } with
  | error error =>
    obtain ⟨rfl, many⟩ := fails error walked
    exact .inr ⟨rfl, many⟩
  | ok last =>
    obtain ⟨names_eq, _, fewKeys, moreInstrs⟩ := keeps last walked
    rw [Nat.zero_mul, Nat.add_zero] at fewKeys
    exact .inl ⟨last, rfl, names_eq, fewKeys, moreInstrs⟩

/-- The walk leaves as many merges as were placed, at most one for each write at each block. -/
theorem length_merges_le (wellFormed : graph.WellFormed)
    (built : dominance.Built graph.successorMap graph.entryName) {last : Renaming}
    (walked : renameTree dominance.tree (startScope graph)
      { graph, phis := placePhis graph dominance, names := .ofGraph graph } = .ok last) :
    (last.phis.toList.map fun entry => entry.2.length).sum ≤ mergeDemand graph := by
  obtain ⟨records, progress, _⟩ := exists_records wellFormed.nodup_names built walked
  have sum_eq : (last.phis.toList.map fun entry => entry.2.length) =
      last.phis.keys.map fun name => (last.phis.getD name []).length := by
    rw [SortedMap.keys, List.map_map]
    refine List.map_congr_left fun entry member => ?_
    rw [Function.comp_apply, SortedMap.getD, SortedMap.get?_eq_some_iff.2 member]
    rfl
  have length_eq : ∀ name, (last.phis.getD name []).length =
      ((placePhis graph dominance).getD name []).length := fun name => by
    rw [progress.phis_eq, List.length_map]
  rw [sum_eq, mergeDemand, ← List.length_map Block.name]
  refine sum_le_of_support last.phis.nodup_keys (fun name => ?_) fun name _ nonempty => ?_
  · rw [length_eq]
    exact length_placed_le graph dominance name
  · -- A merge is placed on a frontier, so in a block.
    rw [length_eq] at nonempty
    obtain ⟨phi, isPlaced⟩ := List.exists_mem_of_length_pos (Nat.pos_of_ne_zero nonempty)
    obtain ⟨_, other, onFrontier⟩ := fresh_of_placed built isPlaced
    have reached := built.reaches_of_frontier onFrontier
    rw [FlowGraph.succeeds_successorMap wellFormed.nodup_names] at reached
    exact wellFormed.mem_names_of_reachable reached

end Tree

/-- The conversion of a well-formed flow graph without merges succeeds unless keys run out. -/
theorem construct_cases {graph : FlowGraph} (wellFormed : graph.WellFormed)
    (unmerged : ∀ block ∈ graph.blocks, ∀ instr ∈ block.instrs, instr.isPhi = false) :
    (∃ after log, construct graph = .ok (after, log) ∧
      after.blocks.length ≤ graph.blocks.length ∧
      after.nextKey ≤ graph.nextKey + keyDemand graph ∧
      after.instrs.length ≤ graph.instrs.length + keyDemand graph) ∨
    (construct graph = .error .keysExhausted ∧ keyLimit ≤ graph.nextKey + keyDemand graph) := by
  have isPruned := FlowGraph.pruned_of_removeUnreachable wellFormed unmerged
  rw [construct_eq wellFormed.nonempty fun block member =>
    Block.phis_eq_nil (unmerged block member)]
  dsimp only
  generalize graph.removeUnreachable.2 = pruned at isPruned ⊢
  obtain ⟨dominance, isDominance, built⟩ := isPruned.wellFormed.exists_dominance
  have demand := mergeDemand_le isPruned
  have fewBlocks := isPruned.sublist.length_le
  have fewInstrs : pruned.instrs.length ≤ graph.instrs.length :=
    (isPruned.sublist.flatMap Block.instrs).length_le
  have nextKey_eq := isPruned.nextKey_eq
  rw [isDominance, Attempt.ok_bind]
  rcases renameTree_cases isPruned.wellFormed built with
    ⟨last, walked, names_eq, fewKeys, moreInstrs⟩ | ⟨failed, many⟩
  · have fewMerges := length_merges_le isPruned.wellFormed built walked
    rw [walked, Attempt.ok_bind]
    rcases @insertPhis_cases last.graph (by rw [names_eq]; exact isPruned.wellFormed.nodup_names)
      last.phis.toList with
      ⟨after, log, inserted, sameNames, sameKey, fewer⟩ | ⟨failed, many⟩
    · rw [inserted]
      have sameLength : after.blocks.length = pruned.blocks.length := by
        have lengths := congrArg List.length (sameNames.trans names_eq)
        rwa [FlowGraph.names, FlowGraph.names, List.length_map, List.length_map] at lengths
      exact .inl ⟨after, _, rfl, by omega, by omega, by omega⟩
    · rw [failed]
      exact .inr ⟨rfl, by omega⟩
  · rw [failed]
    exact .inr ⟨rfl, by omega⟩

end Ssa

end Midend
