import Midend.Proofs.Checked.FlowGraph
import Midend.Proofs.Ssa.Conversion
import Midend.Proofs.Ssa.Placement
import Midend.Proofs.Typing.Merges

/-! # Checked way into single assignment

Frontiers are looked up for blocks that may not be reachable, blocks are looked up by the names of a
tree, and instructions are put in before the last one of a block. Each of these checks passes: the
lookups are those of the dominance of the flow graph at work, which keeps its names, and a block with
a terminator is not empty (`Checked.construct?_eq`). -/

namespace Midend

namespace Checked

open Ssa

/-! ## Insertion -/

/-- Where code may be added that runs before a block ends. -/
def insertionPoint? (block : Block) : Option Nat :=
  if block.terminator?.isSome then minus? block.instrs.length 1 else some block.instrs.length

/-- Adds instructions at the end of a block, before the instruction that ends it. -/
def addAtEnd? (instrs : List Instr) (block : Block) : Option Block := do
  let instrs ← splice? block.instrs (← insertionPoint? block) instrs
  return { block with instrs }

/-- Adds instructions in front of a block. -/
def addInFront? (instrs : List Instr) (block : Block) : Option Block := do
  let instrs ← splice? block.instrs 0 instrs
  return { block with instrs }

/-- A block that ends has a last instruction. -/
theorem insertionPoint?_eq (block : Block) : insertionPoint? block = some block.insertionPoint := by
  rw [insertionPoint?, Block.insertionPoint]
  split
  · rename_i ends
    obtain ⟨terminator, found⟩ := Option.isSome_iff_exists.1 ends
    obtain ⟨front, split⟩ := List.getLast?_eq_some_iff.1 (Option.filter_eq_some_iff.1 found).1
    rw [split, minus?_length_concat, List.length_append, List.length_singleton, Nat.add_sub_cancel]
  · rfl

/-- Code may be added somewhere in the block. -/
theorem insertionPoint_le (block : Block) : block.insertionPoint ≤ block.instrs.length := by
  rw [Block.insertionPoint]
  split <;> omega

/-- The checks on adding instructions at the end of a block pass. -/
theorem addAtEnd?_eq (instrs : List Instr) (block : Block) :
    addAtEnd? instrs block = some (block.insertAt block.insertionPoint instrs) := by
  rw [addAtEnd?, insertionPoint?_eq, some_bind, splice?_eq (insertionPoint_le block)]
  rfl

/-- The checks on adding instructions in front of a block pass. -/
theorem addInFront?_eq (instrs : List Instr) (block : Block) :
    addInFront? instrs block = some (block.insertAt 0 instrs) := by
  rw [addInFront?, splice?_eq (Nat.zero_le _)]
  rfl

/-! ## Placement of merges -/

/-- Follows the frontiers of the blocks on a worklist, last one first. -/
def placeFrom? (frontier? : String → Option (List String)) (defining : SortedSet String) :
    (budget : Nat) → List String → SortedSet String → Option (SortedSet String)
  | _, [], placed => some placed
  | 0, _ :: _, _ => none
  | budget + 1, block :: worklist, placed => do
    let found := (← frontier? block).filter fun name => !placed.contains name
    let onward := found.filter fun name => !defining.contains name
    placeFrom? frontier? defining budget (onward.reverse ++ worklist) (found.foldl .insert placed)

/-- The blocks where a variable with the given defining blocks needs a merge. -/
def phiBlocks? (tables : DominanceTables) (defining : SortedSet String) :
    Option (SortedSet String) := do
  let worklist ← defining.toList.reverse.filterM tables.contains?
  placeFrom? tables.frontier? defining (worklist.length + tables.base.names.length) worklist .empty

/-- The writes of a flow graph, parameters first: each of these is written in the entry. -/
def writes? (graph : FlowGraph) : Option (List (String × Ty × String)) := do
  let params ← graph.params.mapM fun param => do
    let entry ← graph.blocks[0]?
    return (param.name, param.ty, entry.name)
  return params ++ graph.blocks.flatMap fun block =>
    block.instrs.filterMap fun instr =>
      match instr.dest?, instr.ty? with
      | some dest, some ty => some (dest, ty, block.name)
      | _, _ => none

/-- The merges that a flow graph needs. -/
def placePhis? (graph : FlowGraph) (tables : DominanceTables) : Option PendingPhis := do
  let writes ← writes? graph
  let defining : SortedMap String (SortedSet String) := writes.foldl
    (fun blocks (var, _, block) => blocks.alter var fun known => (known.getD .empty).insert block)
    .empty
  let types : SortedMap String Ty :=
    writes.foldl (fun types (var, ty, _) => types.insertIfNew var ty) .empty
  defining.toList.foldlM
    (fun phis entry =>
      match types.get? entry.1 with
      | some ty => do
        let placed ← phiBlocks? tables entry.2
        return placed.toList.foldl
          (fun phis block => phis.alter block fun known =>
            known.getD [] ++ [{ var := entry.1, ty }]) phis
      | none => some phis)
    .empty

/-- Following frontiers passes its checks if looking them up does, in as many steps as there are
blocks on the worklist or not placed yet. -/
theorem placeFrom?_eq {frontier? : String → Option (List String)} {frontier : String → List String}
    (frontier_eq : ∀ block, frontier? block = some (frontier block)) {everything : List String}
    (nodup : everything.Nodup) (frontierNodup : ∀ block, (frontier block).Nodup)
    (frontierSubset : ∀ block, frontier block ⊆ everything) {defining : SortedSet String}
    {budget : Nat} {worklist : List String} {placed : SortedSet String}
    (enough : worklist.length + (unplaced everything placed).length ≤ budget) :
    placeFrom? frontier? defining budget worklist placed =
      some (placeFrom frontier defining budget worklist placed) := by
  induction budget generalizing worklist placed with
  | zero =>
    have empty : worklist = [] := List.eq_nil_of_length_eq_zero (by omega)
    rw [empty]
    rfl
  | succ budget budgetIH =>
    cases worklist with
    | nil => rfl
    | cons head worklist =>
      rw [placeFrom?, frontier_eq, some_bind, placeFrom]
      exact budgetIH (placeFrom_enough nodup frontierNodup frontierSubset defining enough)

section Placement

variable {graph : FlowGraph} {dominance : Dominance} {successors : SortedMap String (List String)}
  {entry : String}

/-- The checks on the blocks that need a merge pass. -/
theorem phiBlocks?_eq (built : dominance.Built successors entry) (defining : SortedSet String) :
    phiBlocks? (tablesOf dominance) defining =
      some (phiBlocks dominance (frontierTable dominance) defining) := by
  have table_eq := getD_frontierTable built
  rw [phiBlocks?, filterM_eq_some fun name _ => contains?_eq built name, some_bind, phiBlocks]
  refine placeFrom?_eq (fun block => ?_) built.nodup_names (fun block => ?_) (fun block => ?_) ?_
  · rw [frontier?_name built, table_eq]
  · exact table_eq block ▸ built.nodup_frontier block
  · intro target member
    rw [table_eq] at member
    exact built.mem_names_of_reaches (built.reaches_of_frontier member)
  · exact Nat.add_le_add_left (List.length_filter_le ..) _

/-- The check on the entry passes. -/
theorem writes?_eq (nonempty : graph.blocks ≠ []) : writes? graph = some (writes graph) := by
  obtain ⟨first, rest, isBlocks⟩ := List.exists_cons_of_ne_nil nonempty
  have each : ∀ param ∈ graph.params, (do
      let entry ← (first :: rest)[0]?
      return (param.name, param.ty, entry.name)) = some (param.name, param.ty, first.name) :=
    fun param _ => rfl
  rw [writes?, writes, isBlocks, mapM_eq_some each]
  rfl

/-- The checks on the placement of merges pass. -/
theorem placePhis?_eq (built : dominance.Built successors entry) (nonempty : graph.blocks ≠ []) :
    placePhis? graph (tablesOf dominance) = some (placePhis graph dominance) := by
  rw [placePhis?, writes?_eq nonempty, some_bind]
  refine (foldlM_eq_some (fun _ => True) trivial fun phis _ entry _ => ⟨?_, trivial⟩).1
  show (match (variableTypes graph).get? entry.1 with
    | some ty => _
    | none => some phis) = some (match (variableTypes graph).get? entry.1 with
    | some ty => _
    | none => phis)
  cases (variableTypes graph).get? entry.1 with
  | none => rfl
  | some ty =>
    dsimp only
    rw [phiBlocks?_eq built]
    rfl

end Placement

/-! ## Renaming -/

/-- What the walk down the dominator tree changes. -/
structure IndexedRenaming where
  /-- The code. -/
  indexed : Indexed
  /-- The merges to be inserted. -/
  phis : PendingPhis
  /-- The supply of names. -/
  names : NameSupply
  /-- What was reported so far. -/
  log : Log := []

/-- What the walk changes, with a new index. -/
def IndexedRenaming.of (state : Renaming) : IndexedRenaming :=
  ⟨.of state.graph, state.phis, state.names, state.log⟩

/-- Adds the undefined values that the end of a block needs, if there are any. -/
def addUndefs? (indexed : Indexed) (name : String) (undefs : List Instr) :
    Checked (Indexed × Log) := do
  if undefs.isEmpty then return (indexed, [])
  else
    let (keyed, graph) ← ofExcept (indexed.graph.freshKeys undefs)
    let reports := keyed.filterMap fun instr => instr.dest?.map (event graph .undefInserted name)
    return (← { indexed with graph : Indexed }.modify? name (addAtEnd? keyed), reports)

/-- Renames one block and gives its successors their values; answers the names in force at its
end. -/
def renameBlock? (name : String) (scope : Scope) (state : IndexedRenaming) :
    Checked (Scope × IndexedRenaming) := do
  let pending := state.phis.getD name []
  let (pending, scope, names) := namePhis pending scope state.names
  let phis := if pending.isEmpty then state.phis else state.phis.insert name pending
  let (_, block) ← state.indexed.seek? name
  let (instrs, scope, names) := renameInstrs block.instrs scope names
  let indexed ← state.indexed.modify? name fun block => some { block with instrs }
  let successors ← ofOption (indexed.successorsOf? name)
  let (phis, undefs, names) := fillSuccessors name scope successors phis {} names
  let (indexed, reports) ← addUndefs? indexed name undefs.instrs
  return (scope, { indexed, phis, names, log := state.log ++ reports })

/-- Puts the merges at the front of their blocks, in the order of block names. -/
def insertPhis? (indexed : Indexed) : List (String × List PendingPhi) → Checked (Indexed × Log)
  | [] => return (indexed, [])
  | (name, phis) :: rest => do
    let reports := phis.map fun phi =>
      event indexed.graph .phiInserted name (phi.dest ++ " for " ++ phi.var)
    let (keyed, graph) ← ofExcept (indexed.graph.freshKeys (phis.map PendingPhi.toInstr))
    let indexed ← { indexed with graph : Indexed }.modifyIfThere? name (addInFront? keyed)
    let (indexed, log) ← insertPhis? indexed rest
    return (indexed, reports ++ log)

/-- Converts a flow graph without leading merges into single assignment. -/
def construct? (indexed : Indexed) : Checked (Indexed × Log) := do
  match indexed.graph.blocks.find? fun block => block.phiCount ≠ 0 with
  | some block =>
    throw (.malformed ("Block '" ++ block.name ++ "' of '" ++ indexed.graph.name ++
      "' already contains phi nodes"))
  | none => pure ()
  if indexed.graph.blocks.isEmpty then return (indexed, [])
  let (removed, indexed) ← ofOption indexed.removeUnreachable?
  let removals := removed.map fun block => event indexed.graph .blockRemoved block "unreachable"
  let tables ← indexed.dominance?
  let phis ← ofOption (placePhis? indexed.graph tables)
  let tree ← ofOption tables.tree?
  let scope : Scope := .ofList (indexed.graph.paramNames.map fun name => (name, name))
  let state ← walk? renameBlock? tree scope { indexed, phis, names := .ofGraph indexed.graph }
  let (indexed, insertions) ← insertPhis? state.indexed state.phis.toList
  return (indexed, removals ++ state.log ++ insertions)

section Conversion

variable {graph : FlowGraph}

/-- The supply of keys does not change the names. -/
theorem names_freshKeys {instrs keyed : List Instr} {after : FlowGraph}
    (isKeyed : graph.freshKeys instrs = .ok (keyed, after)) : after.names = graph.names := by
  obtain ⟨_, rfl⟩ := FlowGraph.freshKeys_eq_ok isKeyed
  rfl

/-- The checks on the undefined values at the end of a block pass. -/
theorem addUndefs?_eq (nodup : graph.names.Nodup) {name : String} (isName : name ∈ graph.names)
    (undefs : List Instr) :
    addUndefs? (.of graph) name undefs =
      ofExcept ((graph.freshKeys undefs).map fun keyed =>
        (.of (keyed.2.modifyBlock name fun block => block.insertAt block.insertionPoint keyed.1),
          keyed.1.filterMap fun instr => instr.dest?.map (event keyed.2 .undefInserted name))) := by
  rw [addUndefs?]
  cases undefs with
  | nil =>
    show _ = ofExcept (.ok (Indexed.of (graph.modifyBlock name fun block =>
      block.insertAt block.insertionPoint []), []))
    rw [modifyBlock_eq_self fun block _ _ => insertAt_nil block _]
    rfl
  | cons first rest =>
    show ofExcept (graph.freshKeys (first :: rest)) >>= _ = _
    cases isKeyed : graph.freshKeys (first :: rest) with
    | error error => rfl
    | ok answer =>
      obtain ⟨keyed, after⟩ := answer
      have names_eq := names_freshKeys isKeyed
      obtain ⟨block, found⟩ := FlowGraph.exists_find?_iff.2 (names_eq ▸ isName)
      show ({ Indexed.of graph with graph := after } : Indexed).modify? name _ >>= _ = _
      rw [of_eq_of_names names_eq, modify?_eq (names_eq ▸ nodup) found
        (fun block => block.insertAt block.insertionPoint keyed) (addAtEnd?_eq keyed block)
        fun _ isName => isName]
      rfl

/-- The visit of a block keeps the names. -/
theorem names_renameBlock {name : String} {scope out : Scope} {state next : Renaming}
    (renamed : renameBlock name scope state = .ok (out, next)) :
    next.graph.names = state.graph.names := by
  obtain ⟨record, ⟨_, _, _, _, _, _, _, _, _, _, _, _, _, _, next_eq⟩, _⟩ :=
    visited_of_renameBlock renamed
  rw [next_eq, FlowGraph.names, FlowGraph.names, List.map_map]
  refine List.map_congr_left fun block _ => ?_
  rw [Function.comp_apply]
  split <;> rfl

/-- The checks on the visit of a block pass. -/
theorem renameBlock?_eq (name : String) (scope : Scope) (state : Renaming)
    (nodup : state.graph.names.Nodup) :
    renameBlock? name scope (.of state) =
      ofExcept ((renameBlock name scope state).map fun visited => (visited.1, .of visited.2)) := by
  rw [renameBlock?, renameBlock]
  dsimp only [IndexedRenaming.of]
  generalize namePhis (state.phis.getD name []) scope state.names = first
  obtain ⟨pending, scope, names⟩ := first
  obtain ⟨absent, present⟩ := seek?_eq nodup name
  rw [FlowGraph.block]
  cases found : state.graph.find? name with
  | none => rw [absent found]; rfl
  | some block =>
    obtain ⟨place, sought, isBlock, sameName⟩ := present block found
    rw [sought, ofExcept_ok_bind, Attempt.ok_bind]
    dsimp only
    generalize renameInstrs block.instrs scope names = second
    obtain ⟨instrs, scope, names⟩ := second
    have names_eq := FlowGraph.names_modifyBlock state.graph
      (fun block => { block with instrs }) (fun _ => rfl) name
    have isName : name ∈ state.graph.names := FlowGraph.exists_find?_iff.1 ⟨block, found⟩
    rw [modify?_eq nodup found (fun block => { block with instrs }) rfl fun _ isName => isName,
      ofExcept_ok_bind, successorsOf?_eq (names_eq ▸ nodup), ofOption_some,
      ofExcept_ok_bind]
    dsimp only
    refine bind_map_eq (addUndefs?_eq (names_eq ▸ nodup) (names_eq ▸ isName) _) fun keyed _ => rfl

/-- Visits of blocks pass their checks, and the blocks keep names of their own. -/
theorem visits_renameBlock :
    Visits renameBlock? renameBlock .of fun state => state.graph.names.Nodup :=
  fun name scope state kept => ⟨renameBlock?_eq name scope state kept,
    fun _ isVisited => (congrArg List.Nodup (names_renameBlock isVisited)).mpr kept⟩

/-- The checks on putting merges in front of blocks pass. -/
theorem insertPhis?_eq (nodup : graph.names.Nodup) (list : List (String × List PendingPhi)) :
    insertPhis? (.of graph) list =
      ofExcept ((insertPhis graph list).map fun inserted => (.of inserted.1, inserted.2)) := by
  induction list generalizing graph with
  | nil => rfl
  | cons head rest restIH =>
    obtain ⟨name, phis⟩ := head
    rw [insertPhis?, insertPhis]
    refine bind_next_eq rfl fun keyed isKeyed => ?_
    have names_eq := names_freshKeys isKeyed
    dsimp only
    rw [of_eq_of_names names_eq, modifyIfThere?_eq (names_eq ▸ nodup) name (addInFront?_eq keyed.1)
      fun _ isName => isName, ofExcept_ok_bind]
    refine bind_map_eq (restIH ?_) fun inserted _ => rfl
    rw [FlowGraph.names_modifyBlock]
    · exact names_eq ▸ nodup
    · exact fun _ => rfl

/-- The checks on the way into single assignment pass. -/
theorem construct?_eq (nodup : graph.names.Nodup) :
    construct? (.of graph) =
      ofExcept ((construct graph).map fun converted => (.of converted.1, converted.2)) := by
  rw [construct?, construct]
  dsimp only [Indexed.graph_of]
  cases graph.blocks.find? fun block => block.phiCount ≠ 0 with
  | some block => rfl
  | none =>
    dsimp only
    -- The guards come first, in the same order; behind them there is a block to start from.
    by_cases empty : graph.blocks.isEmpty = true
    · refine (if_pos empty).trans ?_
      rw [if_pos empty]
      rfl
    · refine (if_neg empty).trans ?_
      rw [if_neg empty, removeUnreachable?_eq nodup, ofOption_some, ofExcept_ok_bind]
      have nodupPruned := nodup.sublist (names_removeUnreachable graph)
      generalize graph.removeUnreachable = pruned at nodupPruned ⊢
      refine bind_map_eq (dominanceOf?_eq pruned.2) fun dominance isDominance => ?_
      have built := built_of_ofFlowGraph isDominance
      have nonempty : pruned.2.blocks ≠ [] := by
        intro empty
        rw [Dominance.ofFlowGraph, empty] at isDominance
        cases isDominance
      show ofOption (placePhis? pruned.2 _) >>= _ = _
      rw [placePhis?_eq built nonempty, ofOption_some, ofExcept_ok_bind, tree?_eq built,
        ofOption_some, ofExcept_ok_bind, renameTree_eq_walk]
      obtain ⟨passes, kept⟩ := walk?_eq visits_renameBlock dominance.tree
        (.ofList (pruned.2.paramNames.map fun name => (name, name)))
        { graph := pruned.2, phis := placePhis pruned.2 dominance, names := .ofGraph pruned.2 }
        nodupPruned
      exact bind_map_eq passes fun state isState =>
        bind_map_eq (insertPhis?_eq (kept state isState) _) fun inserted _ => rfl

/-- Merges are put in front of blocks. -/
theorem names_insertPhis {list : List (String × List PendingPhi)} {inserted : FlowGraph × Log}
    (done : insertPhis graph list = .ok inserted) : inserted.1.names = graph.names := by
  induction list generalizing graph inserted with
  | nil =>
    obtain rfl := Except.ok.inj done
    rfl
  | cons entry rest restIH =>
    obtain ⟨keyed, isKeyed, done⟩ := Attempt.bind_eq_ok.1 done
    obtain ⟨others, isOthers, same⟩ := Attempt.bind_eq_ok.1 done
    obtain rfl := Except.ok.inj same
    show others.1.names = _
    rw [restIH isOthers, FlowGraph.names_modifyBlock, names_freshKeys isKeyed]
    exact fun _ => rfl

/-- In single assignment the blocks have names of their own. -/
theorem names_construct (nodup : graph.names.Nodup) {converted : FlowGraph × Log}
    (done : construct graph = .ok converted) : converted.1.names.Nodup := by
  rw [construct] at done
  split at done
  · cases done
  dsimp only at done
  split at done
  · obtain rfl := Except.ok.inj done
    exact nodup
  · obtain ⟨dominance, _, done⟩ := Attempt.bind_eq_ok.1 done
    obtain ⟨state, isState, done⟩ := Attempt.bind_eq_ok.1 done
    obtain ⟨inserted, isInserted, same⟩ := Attempt.bind_eq_ok.1 done
    obtain rfl := Except.ok.inj same
    show inserted.1.names.Nodup
    rw [names_insertPhis isInserted]
    rw [renameTree_eq_walk] at isState
    exact (walk?_eq visits_renameBlock dominance.tree _ _
      (nodup.sublist (names_removeUnreachable graph))).2 state isState

end Conversion

end Checked

end Midend
