import Midend.Proofs.Checked.Destruct
import Midend.Proofs.Ssa.Establish
import Midend.Proofs.Traces.Edits
import Midend.Proofs.Traces.Passes

/-! # Origins and single assignment

On the way into single assignment each variable that is written is numbered, and on the way out none
is. Merges, undefined values, copies and the jumps of split edges get new keys. So what is left of a
function stems from it (`Ssa.traced_construct`, `Ssa.traced_destruct`). -/

namespace Midend

namespace FlowGraph

variable {graph after : FlowGraph} {function : Func}

/-- What leads to a function still does when a flow graph develops. -/
theorem Traced.kept (traced : graph.Traced Instr.StemsFrom function) (nodup : after.names.Nodup)
    (develops : graph.Develops after) : after.Traced Instr.StemsFrom function :=
  traced.develops nodup develops fun _ _ _ => Instr.StemsFrom.stays

/-- What leads to a function still does when instructions with fresh keys are put into a block. -/
theorem Traced.insertAt (traced : graph.Traced Instr.StemsFrom function) {instrs keyed : List Instr}
    {middle : FlowGraph} (areKeyed : graph.freshKeys instrs = .ok (keyed, middle)) (name : String)
    (place : Block → Nat) :
    (middle.modifyBlock name fun block => block.insertAt (place block) keyed).Traced Instr.StemsFrom
      function :=
  traced.kept (by rw [names_insertAt areKeyed]; exact traced.nodup_names)
    (develops_insertAt traced.nodup_names areKeyed name place)

end FlowGraph

namespace Ssa

variable {graph after : FlowGraph} {function : Func}

/-! ## Into single assignment -/

/-- Renamed instructions stem from the original ones. -/
theorem stem_renameInstrs (instrs : List Instr) (scope : Scope) (names : NameSupply) :
    List.Forall₂ Instr.StemsFrom instrs (renameInstrs instrs scope names).1 := by
  induction instrs generalizing scope names with
  | nil => exact .nil
  | cons instr rest restIH =>
    have read : instr.Stays (instr.mapArgs fun arg => scope.getD arg arg) := instr.stays_mapOperands _
    rw [renameInstrs]
    dsimp only
    split
    · rename_i dest isDest
      obtain ⟨⟨number, isName⟩, _⟩ := names.fresh_spec dest
      refine .cons (.of_stays read ⟨Instr.traces_mapDest _ _, .inr ⟨dest, number, isDest, ?_⟩⟩)
        (restIH _ _)
      rw [Instr.dest?_mapDest, isDest, Option.map_some, isName]
    · exact .cons read.stemsFrom (restIH _ _)

/-- A block is visited that was not visited before. -/
theorem traced_visited {pruned : FlowGraph} (start : pruned.Traced Instr.Stays function) {name : String}
    {scope : Scope} {record : Renamed} {state next : Renaming}
    (traced : state.graph.Traced Instr.StemsFrom function)
    (untouched : ∀ block, state.graph.find? name = some block → block ∈ pruned.blocks)
    (visited : Visited name scope state record next) :
    next.graph.Traced Instr.StemsFrom function := by
  obtain ⟨pending, mid, block, supply, undefs, _, _, found, isRenamed, _, _, _, keys, isNext⟩ :=
    visited.exists_steps
  let counted : FlowGraph := { state.graph with nextKey := state.graph.nextKey + undefs.instrs.length }
  have next_eq : next.graph = counted.modifyBlock name record.finish := isNext
  have nodup : counted.names.Nodup := traced.nodup_names
  have inCounted : counted.find? name = some block := found
  obtain ⟨others, same, changed⟩ := FlowGraph.exists_others nodup inCounted
  have before : state.graph.instrs.Perm (block.instrs ++ others) := same
  have stems := stem_renameInstrs block.instrs record.mid mid
  rw [isRenamed] at stems
  have instrs : next.graph.instrs.Perm (record.body ++ record.makers ++ others) := by
    rw [next_eq]
    exact (changed record.finish).trans ((record.finish_perm block).append_right others)
  have names_eq : next.graph.names = state.graph.names := by
    rw [next_eq]
    exact FlowGraph.names_modifyBlock counted record.finish (fun _ => rfl) name
  have nextKey_eq : next.graph.nextKey = state.graph.nextKey + undefs.instrs.length := by rw [isNext]
  -- The block keeps its keys, and those of undefined values are new.
  have keysFrom : state.graph.KeysFrom next.graph := by
    refine ⟨nextKey_eq ▸ Nat.le_add_right .., ?_⟩
    have body : record.body.map Instr.key = block.instrs.map Instr.key :=
      map_eq_of_forall₂ stems fun _ _ stems => stems.key_eq
    have left := instrs.map Instr.key
    have right := (before.map Instr.key).append_right (state.graph.newKeys next.graph)
    rw [FlowGraph.newKeys_eq nextKey_eq] at right ⊢
    simp only [List.map_append, List.append_assoc, body, keys] at left right
    exact (left.trans (.trans (.append_left _ List.perm_append_comm) right.symm)).subperm
  refine ⟨names_eq ▸ traced.nodup_names, keysFrom.keyed traced.keyed,
    traced.maxKey_lt.trans_le keysFrom.nextKey_le, fun instr member isOld => ?_⟩
  -- The block has not been renamed before, so what is in it stays as it was at the start.
  rcases List.mem_append.1 (instrs.mem_iff.1 member) with inBlock | elsewhere
  · rcases List.mem_append.1 inBlock with inBody | isMaker
    · obtain ⟨old, inside, stemsFrom⟩ := exists_of_forall₂_right stems inBody
      obtain ⟨origin, isOrigin, stays⟩ := start.exists_origin old
        (List.mem_flatMap.2 ⟨block, untouched block found, inside⟩) (stemsFrom.key_eq ▸ isOld)
      exact ⟨origin, isOrigin, .of_stays stays stemsFrom⟩
    · have isNew := List.mem_map_of_mem (f := Instr.key) isMaker
      rw [keys, List.mem_range'_1] at isNew
      exact absurd (traced.maxKey_lt.trans_le isNew.1) (Nat.not_lt.2 isOld)
  · exact traced.exists_origin instr (before.mem_iff.2 (List.mem_append_right _ elsewhere)) isOld

/-- The walk renames each block once: what was not visited yet is as it was. -/
theorem traced_walk {pruned : FlowGraph} {dominance : Dominance} {last : Renaming}
    (start : pruned.Traced Instr.Stays function)
    (built : dominance.Built pruned.successorMap pruned.entryName)
    (walked : renameTree dominance.tree (startScope pruned)
      { graph := pruned, phis := placePhis pruned dominance, names := .ofGraph pruned } = .ok last) :
    last.graph.Traced Instr.StemsFrom function := by
  rw [renameTree_eq_walk] at walked
  have nodup := built.tree_spec.2.1
  obtain ⟨records, walk⟩ := Dominance.Tree.exists_walk renameBlock
    (fun renamed => visited_of_renameBlock renamed) nodup walked
  refine (walk.invariant (fun done state => state.graph.Traced Instr.StemsFrom function ∧
    ∀ block ∈ state.graph.blocks, block.name ∉ done → block ∈ pruned.blocks) []
    ⟨start.mono fun _ _ => Instr.Stays.stemsFrom, fun block member _ => member⟩
    fun before name parent after state next split ⟨traced, untouched⟩ visited => ?_).1
  -- No block is visited twice, because the tree holds each one once.
  have unvisited : name ∉ before.map Prod.fst := by
    rw [List.nil_append] at split
    rw [← Dominance.Tree.map_fst_visits none, split, List.map_append, List.map_cons] at nodup
    exact fun inside => (List.nodup_append.1 nodup).2.2 name inside name (List.mem_cons_self ..) rfl
  refine ⟨traced_visited start traced (fun block found => ?_) visited, fun block member isLater => ?_⟩
  · obtain ⟨member, rfl⟩ := (FlowGraph.find?_eq_some_iff traced.nodup_names).1 found
    exact untouched block member unvisited
  · obtain ⟨_, _, _, _, _, _, _, _, _, _, _, _, _, isNext⟩ := visited.exists_steps
    rw [List.mem_append, List.mem_singleton, not_or] at isLater
    rw [isNext] at member
    obtain ⟨other, inside, rfl⟩ := List.mem_map.1 member
    by_cases isHere : other.name = name
    · rw [if_pos isHere, Renamed.name_finish] at isLater
      exact absurd isHere isLater.2
    · rw [if_neg isHere] at isLater ⊢
      exact untouched other inside isLater.1

/-- Merges are put in front of their blocks. -/
theorem traced_insertPhis {list : List (String × List PendingPhi)} {log : Log}
    (traced : graph.Traced Instr.StemsFrom function)
    (inserted : insertPhis graph list = .ok (after, log)) :
    after.Traced Instr.StemsFrom function := by
  induction list generalizing graph log with
  | nil =>
    obtain ⟨rfl, _⟩ := Prod.mk.inj (Except.ok.inj inserted)
    exact traced
  | cons head rest restIH =>
    obtain ⟨name, phis⟩ := head
    rw [insertPhis] at inserted
    obtain ⟨⟨keyed, middle⟩, areKeyed, inserted⟩ := Attempt.bind_eq_ok.1 inserted
    obtain ⟨⟨final, more⟩, insertedRest, inserted⟩ := Attempt.bind_eq_ok.1 inserted
    obtain ⟨rfl, _⟩ := Prod.mk.inj (Except.ok.inj inserted)
    exact restIH (traced.insertAt areKeyed name fun _ => 0) insertedRest

/-- What is taken into single assignment stems from the function, and no two instructions write the
same variable. -/
theorem traced_construct {log : Log} (traced : graph.Traced Instr.Stays function)
    (constructed : construct graph = .ok (after, log)) : after.Traced after.Owns function := by
  by_cases nonempty : graph.blocks = []
  · have isAfter : after = graph := by
      rw [construct, nonempty] at constructed
      exact (Prod.mk.inj (Except.ok.inj constructed)).1.symm
    exact isAfter ▸ traced.mono fun _ _ => .inl
  · obtain ⟨pruned, dominance, last, construction⟩ :=
      exists_construction traced.nodup_names nonempty constructed
    obtain ⟨_, nextKey_eq, fewer⟩ := construction.kept
    have start : pruned.Traced Instr.Stays function :=
      traced.develops construction.nodup_names
        (.of_alters (.of_subperm fewer.subperm) (Nat.le_of_eq nextKey_eq.symm))
        fun _ _ _ stays stayed => stays.trans stayed
    obtain ⟨_, inserted⟩ := construction.inserted
    have stems := traced_insertPhis
      (traced_walk start construction.built construction.walked) inserted
    obtain ⟨records, recorded⟩ := construction.exists_recorded
    obtain ⟨_, supplied⟩ := recorded.supplied
    -- The names that were given out are distinct, so every instruction writes alone.
    have once : after.dests.Nodup := recorded.dests_perm.nodup_iff.2 supplied.nodup
    exact stems.mono fun _ _ stemsFrom =>
      .inr ⟨stemsFrom, fun dest _ => List.nodup_iff_count_le_one.1 once dest⟩

/-! ## Out of single assignment -/

/-- Edges are split. -/
theorem traced_splitEdges {edges : List (String × String)} {log : Log}
    (traced : graph.Traced Instr.StemsFrom function)
    (split : splitEdges graph edges = .ok (after, log)) : after.Traced Instr.StemsFrom function := by
  induction edges generalizing graph log with
  | nil =>
    obtain ⟨rfl, _⟩ := Prod.mk.inj (Except.ok.inj split)
    exact traced
  | cons edge rest restIH =>
    obtain ⟨source, target⟩ := edge
    obtain ⟨⟨name, middle⟩, isSplit, split⟩ := Attempt.bind_eq_ok.1 split
    obtain ⟨⟨final, more⟩, splitRest, split⟩ := Attempt.bind_eq_ok.1 split
    obtain ⟨rfl, _⟩ := Prod.mk.inj (Except.ok.inj split)
    exact restIH (traced.kept (FlowGraph.nodup_names_splitEdge traced.nodup_names isSplit).1
      (FlowGraph.develops_splitEdge isSplit)) splitRest

/-- Copies are added. -/
theorem traced_insertCopies {names : NameSupply} {list : List (String × List Copy)}
    (traced : graph.Traced Instr.StemsFrom function)
    (inserted : insertCopies graph names list = .ok after) : after.Traced Instr.StemsFrom function := by
  induction list generalizing graph names with
  | nil =>
    obtain rfl := Except.ok.inj inserted
    exact traced
  | cons head rest restIH =>
    obtain ⟨name, copies⟩ := head
    obtain ⟨⟨keyed, middle⟩, areKeyed, inserted⟩ := Attempt.bind_eq_ok.1 inserted
    obtain ⟨_, _, inserted⟩ := Attempt.bind_eq_ok.1 inserted
    exact restIH (traced.insertAt areKeyed name Block.insertionPoint) inserted

/-- What is taken out of single assignment stems from the function. -/
theorem traced_destruct {log : Log} (traced : graph.Traced Instr.StemsFrom function)
    (destructed : destruct graph = .ok (after, log)) : after.Traced Instr.StemsFrom function := by
  obtain ⟨edges, _, destructed⟩ := Attempt.bind_eq_ok.1 destructed
  obtain ⟨⟨divided, splits⟩, split, destructed⟩ := Attempt.bind_eq_ok.1 destructed
  obtain ⟨lowered, inserted, destructed⟩ := Attempt.bind_eq_ok.1 destructed
  obtain ⟨rfl, _⟩ := Prod.mk.inj (Except.ok.inj destructed)
  have isSplit := traced_splitEdges traced split
  have dropped : divided.Develops divided.withoutPhis := by
    refine .of_alters (FlowGraph.alters_map fun block _ => .of_subperm ?_) (Nat.le_refl _)
    have split := List.sublist_append_right block.phis block.body
    rw [block.phis_append_body] at split
    exact split.subperm
  have isBare : divided.withoutPhis.Traced Instr.StemsFrom function :=
    isSplit.kept (divided.names_withoutPhis ▸ isSplit.nodup_names) dropped
  exact traced_insertCopies isBare inserted

end Ssa

end Midend
