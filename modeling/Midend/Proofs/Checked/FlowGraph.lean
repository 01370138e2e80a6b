import Midend.FlowGraph.Build
import Midend.Proofs.Checked.DominatorTree
import Midend.Proofs.FlowGraph.Rebuild
import Midend.Proofs.FlowGraph.Unreachable

/-! # Checked flow graphs

A flow graph keeps an index of the places of its blocks, which has to be made again when blocks are
moved: a place that is out of date may be that of no block. The index is never out of date when it is
used, so a block that the index has is there, and the edits of flow graphs pass their checks
(`Checked.build?_eq`, `Checked.splitEdge?_eq`, `Checked.removeUnreachable?_eq`). -/

namespace Midend

namespace Block

/-! ## Merges at the front -/

/-- There are no more merges than instructions. -/
theorem phiCount_le (block : Block) : block.phiCount ≤ block.instrs.length := by
  rw [← block.phis_append_body, List.length_append]
  exact Nat.le_add_right ..

/-- The merges are cut off by their number. -/
theorem take_phiCount (block : Block) : block.instrs.take block.phiCount = block.phis := by
  conv_lhs => rw [← block.phis_append_body]
  exact List.take_left

/-- What follows the merges is left when they are cut off. -/
theorem drop_phiCount (block : Block) : block.instrs.drop block.phiCount = block.body := by
  conv_lhs => rw [← block.phis_append_body]
  exact List.drop_left

end Block

namespace Checked

open FlowGraph

/-- A flow graph with the places of its blocks. -/
structure Indexed where
  /-- The flow graph. -/
  graph : FlowGraph
  /-- The place of the block of each name. -/
  index : SortedMap String Nat

namespace Indexed

/-- A flow graph with a new index. -/
def of (graph : FlowGraph) : Indexed := ⟨graph, indexOf graph.names⟩

@[simp] theorem graph_of (graph : FlowGraph) : (of graph).graph = graph := rfl

/-! ## Blocks by name -/

/-- The block of a name; where the index has a place, there must be one. -/
def find? (indexed : Indexed) (name : String) : Option (Option Block) :=
  match indexed.index.get? name with
  | some place => indexed.graph.blocks[place]?.map some
  | none => some none

/-- The successors of the block of a name. -/
def successorsOf? (indexed : Indexed) (name : String) : Option (List String) := do
  match ← indexed.find? name with
  | some block => return block.successors
  | none => return []

/-- The block of a name and its place, or the error that there is none. -/
def seek? (indexed : Indexed) (name : String) : Checked (Nat × Block) :=
  match indexed.index.get? name with
  | some place => ofOption (indexed.graph.blocks[place]?.map fun block => (place, block))
  | none => throw (.unknownBlock name)

/-- Changes the block of a name, or fails with the error that there is none. -/
def modify? (indexed : Indexed) (name : String) (change? : Block → Option Block) :
    Checked Indexed := do
  let (place, block) ← indexed.seek? name
  let block ← ofOption (change? block)
  let blocks ← ofOption (put? indexed.graph.blocks place block)
  return { indexed with graph := { indexed.graph with blocks } }

/-- Changes the block of a name, if there is one. -/
def modifyIfThere? (indexed : Indexed) (name : String) (change? : Block → Option Block) :
    Checked Indexed :=
  if indexed.index.contains name then indexed.modify? name change? else return indexed

/-! ## The directed graph -/

/-- Adds the edges from a node to those of the names that the index has. -/
def addKnown? (index : SortedMap String Nat) (graph : Digraph) (source : Nat)
    (targets : List String) : Option Digraph :=
  targets.foldlM
    (fun graph target =>
      match index.get? target with
      | some place => graph.addEdge? source place
      | none => some graph)
    graph

/-- The directed graph on the places of the blocks. -/
def digraph? (indexed : Indexed) : Option Digraph :=
  indexed.graph.blocks.zipIdx.foldlM
    (fun graph entry => addKnown? indexed.index graph entry.2 entry.1.successors)
    (.discrete indexed.graph.blocks.length)

/-- The dominance of a flow graph. -/
def dominance? (indexed : Indexed) : Checked DominanceTables := do
  if indexed.graph.blocks.isEmpty then
    throw (.malformed ("CFG of '" ++ indexed.graph.name ++ "' has no blocks"))
  else
    let entry ← ofOption indexed.graph.blocks[0]?
    Checked.dominance? indexed.graph.successorMap entry.name

/-! ## Edits -/

/-- Whether all merges, wherever they stand, name blocks. -/
def checkPhiLabels? (indexed : Indexed) : Checked Unit :=
  indexed.graph.blocks.forM fun block =>
    (block.instrs.filter Instr.isPhi).forM fun phi => do
      match ← ofOption (phi.labels.findM? fun label => do
        return (← indexed.find? label).isNone) with
      | some missing =>
        throw (.malformed ("Phi in block '" ++ block.name ++ "' of '" ++ indexed.graph.name ++
          "' names unknown block '" ++ missing ++ "'"))
      | none => return ()

/-- Puts a block in front that jumps to the first one, if that one has predecessors. -/
def addEntry (indexed : Indexed) : Except Error (Option String × Indexed) := do
  let (entry, graph) ← indexed.graph.addEntry
  return (entry, .of graph)

/-- What a block without a terminator is ended with, given the block after it. -/
def ending (next : Option Block) : Instr :=
  match next with
  | some next => .jmp next.name
  | none => .ret none

/-- Ends the blocks at the given places that have no terminator; answers their names. -/
def terminate? (graph : FlowGraph) : (places : List Nat) → Checked (List String × FlowGraph)
  | [] => return ([], graph)
  | place :: places => do
    let block ← ofOption graph.blocks[place]?
    if block.terminator?.isSome then terminate? graph places
    else
      let terminator := ending graph.blocks[place + 1]?
      let (key, graph) ← ofExcept graph.freshKey
      let block := { block with instrs := block.instrs ++ [terminator.withKey key] }
      let blocks ← ofOption (put? graph.blocks place block)
      let (changed, graph) ← terminate? { graph with blocks } places
      return (block.name :: changed, graph)

/-- Ends every block that has no terminator; answers the names of the changed blocks. -/
def addTerminators? (indexed : Indexed) : Checked (List String × Indexed) := do
  let (changed, graph) ← terminate? indexed.graph (List.range indexed.graph.blocks.length)
  return (changed, { indexed with graph })

/-- Removes the blocks that no path from the first one reaches, and the operands of leading merges
that came from them; answers the names of the removed blocks. -/
def removeUnreachable? (indexed : Indexed) : Option (List String × Indexed) := do
  if indexed.graph.blocks.isEmpty then return ([], indexed)
  else
    let reachable ← reachable? (← indexed.digraph?) 0
    let numbered := indexed.graph.blocks.zipIdx
    let gone ← numbered.filterM fun entry => (hasBit? reachable entry.2).map (!·)
    let removed := gone.map fun entry => entry.1.name
    if removed.isEmpty then return ([], indexed)
    else
      let kept ← numbered.filterM fun entry => hasBit? reachable entry.2
      let dropGone (phi : Instr) : Instr :=
        phi.withIncoming (phi.incoming.filter fun (label, _) => !removed.contains label)
      let blocks := (kept.map Prod.fst).map (Block.mapPhis dropGone)
      return (removed, .of { indexed.graph with blocks })

/-- Puts a new block on the edges between two blocks; answers its name. -/
def splitEdge? (indexed : Indexed) (source target : String) : Checked (String × Indexed) := do
  match indexed.index.get? source with
  | none => throw (.unknownBlock source)
  | some place =>
    if !indexed.index.contains target then throw (.unknownBlock target)
    else
      let block ← ofOption indexed.graph.blocks[place]?
      if !block.successors.contains target then
        throw (.malformed ("No edge " ++ source ++ " -> " ++ target ++ " in '" ++
          indexed.graph.name ++ "'"))
      else
        let (name, graph) := indexed.graph.freshBlockName
        let blocks ← ofOption (put? graph.blocks place
          (block.mapTerminator (Instr.mapLabels (replaceName target name))))
        let indexed ← { indexed with graph := { graph with blocks } : Indexed }.modify? target
          fun block => some (block.mapPhis (Instr.mapLabels (replaceName source name)))
        let (key, graph) ← ofExcept indexed.graph.freshKey
        let graph ← ofExcept
          (graph.insertBlock (place + 1) ⟨name, [(Instr.jmp target).withKey key]⟩)
        return (name, .of graph)

/-- The flow graph of a function and what had to be added to it. -/
def build? (function : Func) : Checked (Indexed × Log) := do
  ofExcept function.check
  let graph ← ofExcept (ofSegments function)
  let indexed := Indexed.of graph
  indexed.checkPhiLabels?
  let report (kind : Event.Kind) (block : String) : Event :=
    { kind, function := some graph.name, block := some block }
  let (entry, indexed) ← ofExcept indexed.addEntry
  let (terminated, indexed) ← indexed.addTerminators?
  return (indexed,
    entry.toList.map (report .entryInserted) ++ terminated.map (report .terminatorInserted))

end Indexed

/-! ## Blocks by name -/

section Lookup

variable {graph : FlowGraph}

/-- The index has the places of the blocks. -/
theorem get?_index (nodup : graph.names.Nodup) (name : String) :
    (Indexed.of graph).index.get? name = graph.indexOf? name := by
  show (indexOf graph.names).get? name = _
  rw [get?_indexOf nodup, indexOf?, names, List.findIdx?_map]
  rfl

/-- Either there is no block of a name, or the index has its place. -/
theorem index_cases (nodup : graph.names.Nodup) (name : String) :
    ((Indexed.of graph).index.get? name = none ∧ graph.find? name = none) ∨
    ∃ place block, (Indexed.of graph).index.get? name = some place ∧
      graph.blocks[place]? = some block ∧ block.name = name ∧ graph.find? name = some block := by
  rw [get?_index nodup]
  cases found : graph.indexOf? name with
  | none =>
    refine .inl ⟨rfl, List.find?_eq_none.2 fun block member => ?_⟩
    exact Bool.eq_false_iff.1 (List.findIdx?_eq_none_iff.1 found block member)
  | some place =>
    obtain ⟨block, isBlock, same⟩ := (indexOf?_eq_some_iff nodup).1 found
    exact .inr ⟨place, block, rfl, isBlock, same,
      (find?_eq_some_iff nodup).2 ⟨List.mem_of_getElem? isBlock, same⟩⟩

/-- The check on the block of a name passes. -/
theorem find?_eq (nodup : graph.names.Nodup) (name : String) :
    (Indexed.of graph).find? name = some (graph.find? name) := by
  rw [Indexed.find?]
  rcases index_cases nodup name with ⟨missing, found⟩ | ⟨place, block, isPlace, isBlock, _, found⟩
  · rw [missing, found]
  · rw [isPlace, found]
    show Option.map some graph.blocks[place]? = _
    rw [isBlock, Option.map_some]

/-- The check on the successors of a block passes. -/
theorem successorsOf?_eq (nodup : graph.names.Nodup) (name : String) :
    (Indexed.of graph).successorsOf? name = some (graph.successorsOf name) := by
  rw [Indexed.successorsOf?, find?_eq nodup, some_bind, successorsOf]
  cases graph.find? name <;> rfl

/-- Whether the index has a name is whether there is a block of that name. -/
theorem contains_index (nodup : graph.names.Nodup) (name : String) :
    (Indexed.of graph).index.contains name = graph.hasBlock name := by
  show ((Indexed.of graph).index.get? name).isSome = _
  rw [hasBlock]
  rcases index_cases nodup name with ⟨missing, found⟩ | ⟨place, block, isPlace, _, _, found⟩
  · rw [missing, found]
    rfl
  · rw [isPlace, found]
    rfl

/-- The check on the place of a block passes. -/
theorem seek?_eq (nodup : graph.names.Nodup) (name : String) :
    (graph.find? name = none →
      (Indexed.of graph).seek? name = ofExcept (.error (.unknownBlock name))) ∧
    ∀ block, graph.find? name = some block → ∃ place,
      (Indexed.of graph).seek? name = ofExcept (.ok (place, block)) ∧
        graph.blocks[place]? = some block ∧ block.name = name := by
  rw [Indexed.seek?]
  rcases index_cases nodup name with ⟨missing, found⟩ | ⟨place, block, isPlace, isBlock, same, found⟩
  · rw [missing, found]
    exact ⟨fun _ => rfl, fun _ impossible => by cases impossible⟩
  · rw [isPlace, found]
    refine ⟨(fun impossible => by cases impossible), fun other isOther => ?_⟩
    obtain rfl := Option.some.inj isOther
    refine ⟨place, ?_, isBlock, same⟩
    show ofOption (graph.blocks[place]?.map _) = _
    rw [isBlock]
    rfl

/-- Changing the block at a place changes the block of its name. -/
theorem modifyBlock_eq_set (nodup : graph.names.Nodup) {place : Nat} {block : Block}
    (isBlock : graph.blocks[place]? = some block) (change : Block → Block) :
    graph.modifyBlock block.name change =
      { graph with blocks := graph.blocks.set place (change block) } := by
  have same : (graph.modifyBlock block.name change).blocks =
      graph.blocks.set place (change block) := by
    refine List.ext_getElem? fun other => ?_
    show (graph.blocks.map _)[other]? = _
    rw [List.getElem?_map, List.getElem?_set]
    by_cases isPlace : place = other
    · subst isPlace
      rw [isBlock, Option.map_some, if_pos rfl, if_pos rfl,
        if_pos (List.getElem?_eq_some_iff.1 isBlock).1]
    · rw [if_neg isPlace]
      cases isOther : graph.blocks[other]? with
      | none => rfl
      | some second =>
        -- Another block has another name, so it stays.
        rw [Option.map_some, if_neg fun sameName => isPlace ?_]
        have first_eq := (indexOf?_eq_some_iff nodup).2 ⟨block, isBlock, rfl⟩
        have second_eq := (indexOf?_eq_some_iff nodup).2 ⟨second, isOther, sameName⟩
        exact Option.some.inj (first_eq.symm.trans second_eq)
  rw [← same]
  rfl

/-- An index stays right while the names stay in their places. -/
theorem of_eq_of_names {after : FlowGraph} (same : after.names = graph.names) :
    ({ Indexed.of graph with graph := after } : Indexed) = .of after := by
  rw [Indexed.of, Indexed.of, same]

/-- The checks on a change of a block pass if those of the change do. -/
theorem modify?_eq (nodup : graph.names.Nodup) {name : String} {block : Block}
    (found : graph.find? name = some block) {change? : Block → Option Block}
    (change : Block → Block) (passes : change? block = some (change block))
    (sameName : ∀ block, block.name = name → (change block).name = name) :
    (Indexed.of graph).modify? name change? =
      ofExcept (.ok (.of (graph.modifyBlock name change))) := by
  obtain ⟨place, sought, isBlock, rfl⟩ := (seek?_eq nodup name).2 block found
  rw [← of_eq_of_names (names_modifyBlock_of sameName), modifyBlock_eq_set nodup isBlock,
    Indexed.modify?, sought, ofExcept_ok_bind]
  show ofOption (change? block) >>= _ = _
  rw [passes, ofOption_some, ofExcept_ok_bind]
  show ofOption (put? graph.blocks place (change block)) >>= _ = _
  rw [put?_eq (List.getElem?_eq_some_iff.1 isBlock).1]
  rfl

/-- A change that changes nothing in the block of a name. -/
theorem modifyBlock_eq_self {name : String} {change : Block → Block}
    (same : ∀ block ∈ graph.blocks, block.name = name → change block = block) :
    graph.modifyBlock name change = graph := by
  have blocks_eq : (graph.blocks.map fun block =>
      if block.name = name then change block else block) = graph.blocks := by
    refine (List.map_congr_left fun block member => ?_).trans (List.map_id graph.blocks)
    split
    · rename_i isName
      exact same block member isName
    · rfl
  rw [FlowGraph.modifyBlock, blocks_eq]

/-- The checks on a change of a block pass if those of the change do, whether the block is there or
not. -/
theorem modifyIfThere?_eq (nodup : graph.names.Nodup) (name : String)
    {change? : Block → Option Block} {change : Block → Block}
    (passes : ∀ block, change? block = some (change block))
    (sameName : ∀ block, block.name = name → (change block).name = name) :
    (Indexed.of graph).modifyIfThere? name change? =
      ofExcept (.ok (.of (graph.modifyBlock name change))) := by
  rw [Indexed.modifyIfThere?, contains_index nodup]
  by_cases isBlock : graph.hasBlock name = true
  · obtain ⟨block, found⟩ := exists_find?_iff.2 (hasBlock_iff.1 isBlock)
    rw [if_pos isBlock, modify?_eq nodup found change (passes block) sameName]
  · rw [if_neg isBlock, modifyBlock_eq_self]
    · rfl
    · intro block member isName
      exact absurd (hasBlock_iff.2 (isName ▸ List.mem_map_of_mem member)) isBlock

end Lookup

/-! ## The directed graph -/

section Graph

variable {graph : FlowGraph}

/-- Edges added in several steps. -/
theorem foldl_extend {α : Type} (edges : α → List (Nat × Nat)) (list : List α) (start : Digraph) :
    list.foldl (fun graph element => extend graph (edges element)) start =
      extend start (list.flatMap edges) := by
  induction list generalizing start with
  | nil => exact (extend_nil start).symm
  | cons first rest restIH =>
    rw [List.foldl_cons, restIH, List.flatMap_cons, extend_append]

/-- The checks on the edges that leave a block pass. -/
theorem addKnown?_eq (nodup : graph.names.Nodup) {known : Digraph}
    (order : known.order = graph.blocks.length) {source : Nat} (below : source < known.order)
    (targets : List String) :
    Indexed.addKnown? (Indexed.of graph).index known source targets =
      some (extend known (targets.filterMap fun name =>
        (graph.indexOf? name).map fun target => (source, target))) := by
  have each : ∀ state : Digraph, state.order = known.order → ∀ target ∈ targets,
      (match (Indexed.of graph).index.get? target with
        | some place => state.addEdge? source place
        | none => some state) =
          some (extend state ((graph.indexOf? target).map fun place => (source, place)).toList) ∧
      (extend state ((graph.indexOf? target).map fun place => (source, place)).toList).order =
        known.order := by
    intro state sameOrder target _
    refine ⟨?_, sameOrder⟩
    rw [get?_index nodup]
    cases found : graph.indexOf? target with
    | none => exact congrArg some (extend_nil state).symm
    | some place =>
      obtain ⟨block, isBlock, _⟩ := (indexOf?_eq_some_iff nodup).1 found
      have placeBelow := (List.getElem?_eq_some_iff.1 isBlock).1
      exact addEdge?_eq (by omega) (by omega)
  rw [Indexed.addKnown?, (foldlM_eq_some (fun state => state.order = known.order) rfl each).1,
    foldl_extend, List.filterMap_eq_flatMap_toList]

/-- The checks on the directed graph pass. -/
theorem digraph?_eq (nodup : graph.names.Nodup) :
    (Indexed.of graph).digraph? = some graph.digraph := by
  have each : ∀ state : Digraph, state.order = graph.blocks.length →
      ∀ entry ∈ graph.blocks.zipIdx,
      Indexed.addKnown? (Indexed.of graph).index state entry.2 entry.1.successors =
        some (extend state (entry.1.successors.filterMap fun name =>
          (graph.indexOf? name).map fun target => (entry.2, target))) ∧
      (extend state (entry.1.successors.filterMap fun name =>
          (graph.indexOf? name).map fun target => (entry.2, target))).order =
        graph.blocks.length := by
    intro state sameOrder entry member
    have isBlock := List.mem_zipIdx_iff_getElem?.1 member
    have below := (List.getElem?_eq_some_iff.1 isBlock).1
    exact ⟨addKnown?_eq nodup sameOrder (by omega) _, sameOrder⟩
  show graph.blocks.zipIdx.foldlM _ (Digraph.discrete graph.blocks.length) = _
  rw [(foldlM_eq_some (fun state => state.order = graph.blocks.length) rfl each).1, foldl_extend]
  rfl

/-- The checks on the dominance of a flow graph pass. -/
theorem dominanceOf?_eq (graph : FlowGraph) :
    (Indexed.of graph).dominance? = ofExcept ((Dominance.ofFlowGraph graph).map tablesOf) := by
  rw [Indexed.dominance?, Dominance.ofFlowGraph]
  show (if graph.blocks.isEmpty then _ else ofOption graph.blocks[0]? >>= _) = _
  cases isBlocks : graph.blocks with
  | nil => rfl
  | cons entry rest => exact dominance?_eq graph.successorMap entry.name

end Graph

/-! ## Edits -/

section Edits

variable {graph : FlowGraph}

/-- The checks on the labels of merges pass. -/
theorem checkPhiLabels?_eq (nodup : graph.names.Nodup) :
    (Indexed.of graph).checkPhiLabels? = ofExcept graph.checkPhiLabels := by
  refine forM_eq fun block _ => forM_eq fun phi _ => ?_
  have searched : (phi.labels.findM? fun label => do
      return (← (Indexed.of graph).find? label).isNone) =
        some (phi.labels.find? fun label => !graph.hasBlock label) := by
    refine findM?_eq_some fun label _ => ?_
    rw [find?_eq nodup, some_bind, hasBlock, Option.not_isSome]
    rfl
  rw [searched, ofOption_some, ofExcept_ok_bind]
  cases phi.labels.find? fun label => !graph.hasBlock label <;> rfl

/-- The supply of keys does not depend on the blocks. -/
theorem freshKey_withBlocks (graph : FlowGraph) (blocks : List Block) :
    ({ graph with blocks } : FlowGraph).freshKey =
      graph.freshKey.map fun fresh => (fresh.1, { fresh.2 with blocks }) := by
  rw [freshKey, freshKey]
  split <;> rfl

/-- Ends a block, then the blocks after it. -/
theorem terminate_cons (graph : FlowGraph) (block : Block) (rest : List Block) :
    graph.terminate (block :: rest) =
      if block.terminator?.isSome then
        (graph.terminate rest).map fun ended => (ended.1, block :: ended.2.1, ended.2.2)
      else
        graph.freshKey >>= fun fresh => (fresh.2.terminate rest).map fun ended =>
          (block.name :: ended.1, { block with
            instrs := block.instrs ++ [(Indexed.ending rest.head?).withKey fresh.1] } :: ended.2.1,
            ended.2.2) := by
  cases rest with
  | nil => rw [FlowGraph.terminate.eq_3]; split <;> rfl
  | cons next later => rw [FlowGraph.terminate.eq_2]; split <;> rfl

/-- The checks on ending the blocks after those that are done pass. -/
theorem terminate?_eq (graph : FlowGraph) (done rest : List Block) :
    Indexed.terminate? { graph with blocks := done ++ rest } (List.range' done.length rest.length) =
      ofExcept ((graph.terminate rest).map fun ended =>
        (ended.1, { ended.2.2 with blocks := done ++ ended.2.1 })) := by
  induction rest generalizing graph done with
  | nil => rfl
  | cons block rest restIH =>
    have atPlace : (done ++ block :: rest)[done.length]? = some block := by simp
    have atNext : (done ++ block :: rest)[done.length + 1]? = rest.head? := by
      rw [List.getElem?_append_right (Nat.le_add_right ..), Nat.add_sub_cancel_left,
        List.getElem?_cons_succ, List.head?_eq_getElem?]
    -- The block that was ended is done, and the next ones are ended behind it.
    have onward : ∀ graph (block : Block),
        Indexed.terminate? { graph with blocks := done ++ block :: rest }
            (List.range' (done.length + 1) rest.length) =
          ofExcept ((FlowGraph.terminate graph rest).map fun ended =>
            (ended.1, { ended.2.2 with blocks := done ++ block :: ended.2.1 })) := by
      intro graph block
      have := restIH graph (done ++ [block])
      simpa using this
    rw [List.length_cons, List.range'_succ, Indexed.terminate?, terminate_cons]
    show ofOption (done ++ block :: rest)[done.length]? >>= _ = _
    rw [atPlace, ofOption_some, ofExcept_ok_bind]
    by_cases isEnded : block.terminator?.isSome
    · rw [if_pos isEnded, if_pos isEnded, onward]
      cases graph.terminate rest <;> rfl
    · rw [if_neg isEnded, if_neg isEnded, freshKey_withBlocks]
      show ofExcept (graph.freshKey.map _) >>= _ = _
      cases graph.freshKey with
      | error error => rfl
      | ok fresh =>
        obtain ⟨key, after⟩ := fresh
        show ofOption (put? (done ++ block :: rest) done.length { block with instrs := block.instrs ++
          [(Indexed.ending (done ++ block :: rest)[done.length + 1]?).withKey key] }) >>= _ = _
        rw [put?_eq (by simp), ofOption_some, ofExcept_ok_bind, List.set_append_right _ _ le_rfl,
          Nat.sub_self, List.set_cons_zero, atNext, Attempt.ok_bind]
        show Indexed.terminate? { after with blocks := _ } _ >>= _ = _
        rw [onward]
        cases after.terminate rest <;> rfl

/-- The checks on ending all blocks pass. -/
theorem addTerminators?_eq (graph : FlowGraph) :
    (Indexed.of graph).addTerminators? = ofExcept (graph.addTerminators.map fun ended =>
      (ended.1, .of ended.2)) := by
  have passes := terminate?_eq graph [] graph.blocks
  rw [List.nil_append, List.length_nil, ← List.range_eq_range'] at passes
  rw [Indexed.addTerminators?, addTerminators]
  show Indexed.terminate? graph (List.range graph.blocks.length) >>= _ = _
  rw [passes]
  cases ended : graph.terminate graph.blocks with
  | error error => rfl
  | ok answer =>
    obtain ⟨changed, blocks, after⟩ := answer
    have same : ({ after with blocks } : FlowGraph).names = graph.names := names_of_terminate ended
    exact congrArg (fun indexed => ofExcept (.ok (changed, indexed))) (of_eq_of_names same)

/-- The checks on the removal of blocks pass. -/
theorem removeUnreachable?_eq (nodup : graph.names.Nodup) :
    (Indexed.of graph).removeUnreachable? =
      some (graph.removeUnreachable.1, .of graph.removeUnreachable.2) := by
  have fits := Digraph.fits_reachable graph.digraph 0
  have isGone : (graph.blocks.zipIdx.filterM fun entry =>
      (hasBit? (graph.digraph.reachable 0) entry.2).map (!·)) =
        some (graph.blocks.zipIdx.filter fun entry =>
          !(graph.digraph.reachable 0).contains entry.2) := by
    refine filterM_eq_some fun entry _ => ?_
    rw [hasBit?_eq fits, Option.map_some]
  have isKept : (graph.blocks.zipIdx.filterM fun entry =>
      hasBit? (graph.digraph.reachable 0) entry.2) =
        some (graph.blocks.zipIdx.filter fun entry =>
          (graph.digraph.reachable 0).contains entry.2) :=
    filterM_eq_some fun entry _ => hasBit?_eq fits entry.2
  rw [Indexed.removeUnreachable?]
  show (if graph.blocks.isEmpty then _ else _) = _
  split
  · rename_i empty
    rw [FlowGraph.removeUnreachable, List.isEmpty_iff.1 empty]
    rfl
  · rw [digraph?_eq nodup, some_bind, reachable?_eq, some_bind]
    show (List.filterM _ graph.blocks.zipIdx >>= _) = _
    rw [isGone, some_bind, FlowGraph.removeUnreachable]
    dsimp only
    split
    · rfl
    · show (List.filterM _ graph.blocks.zipIdx >>= _) = _
      rw [isKept]
      rfl

/-- The checks on leading an edge to a new block, and putting the block there, pass. -/
theorem reroute?_eq (nodup : graph.names.Nodup) {place : Nat} {block : Block}
    (isBlock : graph.blocks[place]? = some block) {target : String}
    (isKnown : graph.hasBlock target = true) (name : String) :
    (do
      let blocks ← ofOption (put? graph.blocks place
        (block.mapTerminator (Instr.mapLabels (replaceName target name))))
      let indexed ← ({ Indexed.of graph with graph := { graph with blocks } } : Indexed).modify?
        target fun other => some (other.mapPhis (Instr.mapLabels (replaceName block.name name)))
      let fresh ← ofExcept indexed.graph.freshKey
      let after ← ofExcept
        (fresh.2.insertBlock (place + 1) ⟨name, [(Instr.jmp target).withKey fresh.1]⟩)
      return (name, Indexed.of after)) =
    ofExcept (Except.map (fun split => (split.1, .of split.2)) do
      let fresh ← ((graph.modifyBlock block.name
        (Block.mapTerminator (Instr.mapLabels (replaceName target name)))).modifyBlock target
        (Block.mapPhis (Instr.mapLabels (replaceName block.name name)))).freshKey
      let after ← fresh.2.insertBlock (place + 1) ⟨name, [(Instr.jmp target).withKey fresh.1]⟩
      return (name, after)) := by
  have keepsName : ∀ other : Block, (other.mapTerminator
      (Instr.mapLabels (replaceName target name))).name = other.name := by
    intro other
    rw [Block.mapTerminator]
    split <;> rfl
  have names_eq := names_modifyBlock graph _ keepsName block.name
  obtain ⟨other, isOther⟩ := exists_find?_iff.2 (names_eq ▸ hasBlock_iff.1 isKnown)
  have changed := @modify?_eq _ (names_eq ▸ nodup) _ _ isOther
    (fun other => some (other.mapPhis (Instr.mapLabels (replaceName block.name name))))
    (Block.mapPhis (Instr.mapLabels (replaceName block.name name))) rfl fun _ isName => isName
  rw [← of_eq_of_names names_eq, modifyBlock_eq_set nodup isBlock] at changed
  rw [put?_eq (List.getElem?_eq_some_iff.1 isBlock).1, ofOption_some, ofExcept_ok_bind, changed,
    ofExcept_ok_bind, modifyBlock_eq_set nodup isBlock]
  exact bind_next_eq rfl fun fresh _ => bind_next_eq rfl fun after _ => rfl

/-- The checks on putting a block on an edge pass. -/
theorem splitEdge?_eq (nodup : graph.names.Nodup) (source target : String) :
    (Indexed.of graph).splitEdge? source target =
      ofExcept ((graph.splitEdge source target).map fun split => (split.1, .of split.2)) := by
  rw [Indexed.splitEdge?, FlowGraph.splitEdge, get?_index nodup, contains_index nodup]
  cases found : graph.indexOf? source with
  | none => rfl
  | some place =>
    obtain ⟨block, isBlock, rfl⟩ := (indexOf?_eq_some_iff nodup).1 found
    have isSource : graph.find? block.name = some block :=
      (find?_eq_some_iff nodup).2 ⟨List.mem_of_getElem? isBlock, rfl⟩
    dsimp only
    by_cases isKnown : graph.hasBlock target = true
    · rw [isKnown]
      show ofOption graph.blocks[place]? >>= _ = _
      rw [isBlock, ofOption_some, ofExcept_ok_bind, successorsOf, isSource]
      dsimp only
      by_cases leads : block.successors.contains target = true
      · rw [leads]
        exact @reroute?_eq graph.freshBlockName.2 nodup _ _ isBlock _ isKnown _
      · rw [Bool.not_eq_true] at leads
        rw [leads]
        rfl
    · rw [Bool.not_eq_true] at isKnown
      rw [isKnown]
      rfl

/-- The checks on the flow graph of a function pass. -/
theorem build?_eq (function : Func) :
    Indexed.build? function =
      ofExcept ((build function).map fun built => (.of built.1, built.2)) := by
  rw [Indexed.build?, build]
  refine bind_next_eq rfl fun _ isChecked => bind_next_eq rfl fun graph isStart => ?_
  have written := Written.of_ofSegments (Func.checked_of_check isChecked) isStart
  refine bind_next_eq (checkPhiLabels?_eq written.nodup_names) fun _ _ => ?_
  have entered : (Indexed.of graph).addEntry =
      graph.addEntry.map fun entered => (entered.1, .of entered.2) := by
    show (graph.addEntry >>= _) = _
    cases graph.addEntry <;> rfl
  refine bind_map_eq (congrArg ofExcept entered) fun entered _ => ?_
  exact bind_map_eq (addTerminators?_eq entered.2) fun ended _ => rfl

end Edits

end Checked

end Midend
