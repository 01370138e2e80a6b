import Midend.FlowGraph.Edit
import Midend.Proofs.Semantics.Simulation

/-! # Removing unreachable blocks

The blocks kept are those that the entry reaches (`FlowGraph.mem_reachable_iff`), and merges keep what
they take from them (`FlowGraph.removeUnreachable_eq`). A flow graph without merges stays well-formed
without the others, and yields what it yielded (`FlowGraph.pruned_of_removeUnreachable`). -/

namespace Midend

namespace FlowGraph

variable {graph : FlowGraph}

/-! ## Places of blocks -/

/-- The place of a block in a flow graph whose blocks have names of their own. -/
theorem indexOf?_eq_some_iff (nodup : graph.names.Nodup) {name : String} {place : Nat} :
    graph.indexOf? name = some place ↔
      ∃ block, graph.blocks[place]? = some block ∧ block.name = name := by
  have viaNames : graph.indexOf? name = graph.names.findIdx? (· == name) := by
    rw [indexOf?, names, List.findIdx?_map]
    rfl
  rw [viaNames, findIdx?_eq_some_iff nodup, names, List.getElem?_map, Option.map_eq_some_iff]

/-- Places are joined as their blocks are. -/
theorem edge_digraph_iff (nodup : graph.names.Nodup) {source target : Nat} :
    graph.digraph.Edge source target ↔ ∃ block other, graph.blocks[source]? = some block ∧
      graph.blocks[target]? = some other ∧ other.name ∈ block.successors := by
  rw [Digraph.Edge, digraph, Digraph.ofEdges, List.mem_filter, indexEdges, List.mem_flatMap]
  simp only [List.mem_filterMap, Option.map_eq_some_iff, Prod.mk.injEq, Prod.exists,
    List.mem_zipIdx_iff_getElem?, indexOf?_eq_some_iff nodup, decide_eq_true_eq]
  constructor
  · rintro ⟨⟨block, _, found, name, leads, _, ⟨other, foundOther, rfl⟩, rfl, rfl⟩, _⟩
    exact ⟨block, other, found, foundOther, leads⟩
  · rintro ⟨block, other, found, foundOther, leads⟩
    exact ⟨⟨block, source, found, other.name, leads, target, ⟨other, foundOther, rfl⟩, rfl, rfl⟩,
      (List.getElem?_eq_some_iff.1 found).1, (List.getElem?_eq_some_iff.1 foundOther).1⟩

/-- Places are reached as their blocks are. -/
theorem reaches_digraph_iff (nodup : graph.names.Nodup) {place : Nat} {block : Block}
    (found : graph.blocks[place]? = some block) :
    Reaches graph.digraph.Edge 0 place ↔ graph.Reachable block.name := by
  obtain ⟨first, isFirst, firstMember, isEntry⟩ :=
    exists_first_block (List.ne_nil_of_mem (List.mem_of_getElem? found))
  rw [List.head?_eq_getElem?] at isFirst
  constructor
  · rintro ⟨nodes, path⟩
    obtain ⟨other, foundOther, reached⟩ := path.invariant
      (fun node => ∃ block, graph.blocks[node]? = some block ∧ graph.Reachable block.name)
      ⟨first, isFirst, by rw [isEntry]; exact .refl _ _⟩ (by
        rintro here next ⟨block, found, reached⟩ edge
        obtain ⟨block', other, found', foundOther, leads⟩ := (edge_digraph_iff nodup).1 edge
        obtain rfl := Option.some.inj (found.symm.trans found')
        exact ⟨other, foundOther,
          reached.step (leads_of_mem nodup (List.mem_of_getElem? found) leads)⟩)
    obtain rfl := Option.some.inj (found.symm.trans foundOther)
    exact reached
  · -- Along a path of names, every block on the way has its place.
    rintro ⟨names, path⟩
    have general := path.invariant
      (fun name => ∀ place block, graph.blocks[place]? = some block → block.name = name →
        Reaches graph.digraph.Edge 0 place) ?_ ?_
    · exact general place block found rfl
    · intro place block found same
      have place_eq := (indexOf?_eq_some_iff nodup).2 ⟨block, found, same⟩
      have zero_eq := (indexOf?_eq_some_iff nodup).2 ⟨first, isFirst, isEntry⟩
      rw [Option.some.inj (place_eq.symm.trans zero_eq)]
      exact .refl _ _
    · intro here next reached leads place block found same
      obtain ⟨source, foundSource, isSuccessor⟩ := leads_iff.1 leads
      obtain ⟨sourceMember, isHere⟩ := (find?_eq_some_iff nodup).1 foundSource
      obtain ⟨sourcePlace, atPlace⟩ := List.getElem?_of_mem sourceMember
      refine (reached sourcePlace source atPlace isHere).step ?_
      exact (edge_digraph_iff nodup).2 ⟨source, block, atPlace, found, by rw [same]; exact isSuccessor⟩

/-- The places found are those of the blocks that the entry reaches. -/
theorem mem_reachable_iff (nodup : graph.names.Nodup) {place : Nat} {block : Block}
    (found : graph.blocks[place]? = some block) :
    (graph.digraph.reachable 0).contains place = true ↔ graph.Reachable block.name := by
  have below : 0 < graph.digraph.order :=
    List.length_pos_of_mem (List.mem_of_getElem? found)
  rw [BitSet.contains_iff, Digraph.mem_reachable below, reaches_digraph_iff nodup found]

/-! ## Removal -/

/-- A flow graph of the reachable blocks of another one. -/
structure Pruned (graph after : FlowGraph) : Prop where
  /-- The rest is well-formed. -/
  wellFormed : after.WellFormed
  /-- The function has the same name. -/
  name_eq : after.name = graph.name
  /-- The parameters stay. -/
  params_eq : after.params = graph.params
  /-- The blocks kept are those that were reachable. -/
  mem_blocks : ∀ block, block ∈ after.blocks ↔ block ∈ graph.blocks ∧ graph.Reachable block.name
  /-- All blocks kept are reachable. -/
  reachable : ∀ block ∈ after.blocks, after.Reachable block.name
  /-- The entry stays. -/
  head_eq : after.blocks.head? = graph.blocks.head?
  /-- The blocks kept stay in order. -/
  sublist : after.blocks.Sublist graph.blocks
  /-- No key is used up. -/
  nextKey_eq : after.nextKey = graph.nextKey

/-- Dropping blocks that are not reachable keeps the others in reach. -/
theorem reachable_of_filter (nodup : graph.names.Nodup) (nonempty : graph.blocks ≠ [])
    {after : FlowGraph} (keep : Block → Bool) (blocks_eq : after.blocks = graph.blocks.filter keep)
    (kept : ∀ block ∈ graph.blocks, keep block = true ↔ graph.Reachable block.name) :
    after.blocks.head? = graph.blocks.head? ∧
      (∀ block, block ∈ after.blocks ↔ block ∈ graph.blocks ∧ graph.Reachable block.name) ∧
      ∀ name, graph.Reachable name → after.Reachable name := by
  have mem_blocks : ∀ block, block ∈ after.blocks ↔
      block ∈ graph.blocks ∧ graph.Reachable block.name := by
    intro block
    rw [blocks_eq, List.mem_filter]
    constructor
    · rintro ⟨member, isKept⟩
      exact ⟨member, (kept block member).1 isKept⟩
    · rintro ⟨member, reached⟩
      exact ⟨member, (kept block member).2 reached⟩
  obtain ⟨first, isFirst, firstMember, isEntry⟩ := exists_first_block nonempty
  have head_eq : after.blocks.head? = graph.blocks.head? := by
    obtain ⟨rest, isBlocks⟩ := List.head?_eq_some_iff.1 isFirst
    have keepFirst := (kept first firstMember).2 (by rw [isEntry]; exact .refl _ _)
    rw [isFirst, blocks_eq, isBlocks, List.filter_cons_of_pos keepFirst]
    rfl
  have nodupAfter : after.names.Nodup := by
    rw [names, blocks_eq]
    exact nodup.sublist (List.filter_sublist.map _)
  refine ⟨head_eq, mem_blocks, ?_⟩
  -- Reachable blocks are kept, and with them the edges between them.
  rintro name ⟨nodes, path⟩
  refine ⟨nodes, ?_⟩
  rw [entryName_of_head? head_eq]
  refine path.mono fun here next reached edge => ?_
  obtain ⟨block, found, isSuccessor⟩ := leads_iff.1 edge
  obtain ⟨member, rfl⟩ := (find?_eq_some_iff nodup).1 found
  exact leads_of_mem nodupAfter ((mem_blocks block).2 ⟨member, reached⟩) isSuccessor

/-- Dropping blocks that are not reachable keeps what is needed. -/
theorem pruned_of_filter (wellFormed : graph.WellFormed) {after : FlowGraph}
    (name_eq : after.name = graph.name) (params_eq : after.params = graph.params)
    (nextKey_eq : after.nextKey = graph.nextKey) (keep : Block → Bool)
    (blocks_eq : after.blocks = graph.blocks.filter keep)
    (kept : ∀ block ∈ graph.blocks, keep block = true ↔ graph.Reachable block.name) :
    Pruned graph after := by
  have nodup := wellFormed.nodup_names
  obtain ⟨head_eq, mem_blocks, reachable⟩ :=
    reachable_of_filter nodup wellFormed.nonempty keep blocks_eq kept
  have entry_eq := entryName_of_head? head_eq
  refine ⟨⟨?_, ?_, ?_, ?_, ?_, ?_⟩, name_eq, params_eq, mem_blocks, ?_, head_eq,
    blocks_eq ▸ List.filter_sublist, nextKey_eq⟩
  · intro empty
    obtain ⟨first, isFirst, _⟩ := wellFormed.exists_entry
    rw [empty, isFirst] at head_eq
    cases head_eq
  · rw [names, blocks_eq]
    exact nodup.sublist (List.filter_sublist.map _)
  · exact fun block member => wellFormed.blocks block ((mem_blocks block).1 member).1
  · intro block member target isSuccessor
    obtain ⟨inGraph, reached⟩ := (mem_blocks block).1 member
    have edge := leads_of_mem nodup inGraph isSuccessor
    obtain ⟨other, otherMember, same⟩ := List.mem_map.1 (wellFormed.mem_names_of_leads edge)
    rw [← same]
    exact List.mem_map_of_mem
      ((mem_blocks other).2 ⟨otherMember, by rw [same]; exact reached.step edge⟩)
  · intro block member
    rw [entry_eq]
    exact wellFormed.entry_fresh block ((mem_blocks block).1 member).1
  · rw [paramNames, params_eq]
    exact wellFormed.nodup_params
  · exact fun block member => reachable _ ((mem_blocks block).1 member).2

/-- Whether the place of a block is among those that are found. -/
def isFound (graph : FlowGraph) (block : Block) : Bool :=
  (graph.indexOf? block.name).any fun place => (graph.digraph.reachable 0).contains place

/-- What is known about the place of a block is known about the block. -/
theorem isFound_eq (nodup : graph.names.Nodup) {place : Nat} {block : Block}
    (found : graph.blocks[place]? = some block) :
    graph.isFound block = (graph.digraph.reachable 0).contains place := by
  rw [isFound, (indexOf?_eq_some_iff nodup).2 ⟨block, found, rfl⟩, Option.any_some]

/-- The places found are those of the blocks kept, and the others those of the blocks removed. -/
theorem exists_keep (nodup : graph.names.Nodup) : ∃ keep : Block → Bool,
    (∀ block ∈ graph.blocks, keep block = true ↔ graph.Reachable block.name) ∧
      (graph.blocks.zipIdx.filter fun entry =>
        (graph.digraph.reachable 0).contains entry.2).map Prod.fst = graph.blocks.filter keep ∧
      (graph.blocks.zipIdx.filter fun entry =>
        !(graph.digraph.reachable 0).contains entry.2).map (fun entry => entry.1.name) =
          (graph.blocks.filter fun block => !keep block).map Block.name := by
  have atPlace : ∀ entry ∈ graph.blocks.zipIdx,
      (graph.digraph.reachable 0).contains entry.2 = graph.isFound entry.1 := fun entry member =>
    (isFound_eq nodup (List.mem_zipIdx_iff_getElem?.1 member)).symm
  refine ⟨graph.isFound, fun block member => ?_, ?_, ?_⟩
  · obtain ⟨place, found⟩ := List.getElem?_of_mem member
    rw [isFound_eq nodup found, mem_reachable_iff nodup found]
  · rw [List.filter_congr (q := graph.isFound ∘ Prod.fst) atPlace, ← List.filter_map,
      List.zipIdx_map_fst]
  · rw [List.filter_congr (q := (fun block => !graph.isFound block) ∘ Prod.fst)
      fun entry member => by rw [atPlace entry member, Function.comp_apply]]
    conv_rhs => rw [← List.zipIdx_map_fst 0 graph.blocks, List.filter_map, List.map_map]
    rfl

/-- Nothing is removed where all blocks are reachable. -/
theorem removeUnreachable_of_reachable (nodup : graph.names.Nodup)
    (all : ∀ block ∈ graph.blocks, graph.Reachable block.name) :
    graph.removeUnreachable = ([], graph) := by
  obtain ⟨keep, kept, _, removed⟩ := exists_keep nodup
  have none : (graph.blocks.filter fun block => !keep block) = [] := by
    rw [List.filter_eq_nil_iff]
    intro block member
    simp [(kept block member).2 (all block member)]
  unfold removeUnreachable
  exact if_pos (by rw [removed, none]; rfl)

/-- Where no block starts with merges, those that are reachable stay as they are. -/
theorem removeUnreachable_of_unmerged (nodup : graph.names.Nodup)
    (unmerged : ∀ block ∈ graph.blocks, block.phis = []) : ∃ keep : Block → Bool,
    (∀ block ∈ graph.blocks, keep block = true ↔ graph.Reachable block.name) ∧
      graph.removeUnreachable.2 = { graph with blocks := graph.blocks.filter keep } := by
  obtain ⟨keep, kept, isKept, isRemoved⟩ := exists_keep nodup
  refine ⟨keep, kept, ?_⟩
  unfold removeUnreachable
  dsimp only
  split
  · rename_i noneRemoved
    rw [isRemoved, List.isEmpty_iff, List.map_eq_nil_iff, List.filter_eq_nil_iff] at noneRemoved
    have all : graph.blocks.filter keep = graph.blocks :=
      List.filter_eq_self.2 fun block member => by simpa using noneRemoved block member
    rw [all]
  · rw [isKept]
    refine congrArg (fun blocks => { graph with blocks }) ?_
    refine (List.map_congr_left fun block member => ?_).trans (List.map_id _)
    have noPhis := unmerged block (List.mem_filter.1 member).1
    have isBody := block.phis_append_body
    rw [noPhis] at isBody
    rw [Block.mapPhis, noPhis]
    exact congrArg (Block.mk block.name) isBody

/-- A merge without what it takes from some blocks. -/
def dropIncoming (gone : String → Bool) (phi : Instr) : Instr :=
  phi.withIncoming (phi.incoming.filter fun entry => !gone entry.1)

/-- A merge that takes nothing from the blocks stays as it is. -/
theorem dropIncoming_of_kept {gone : String → Bool} {phi : Instr} (isPhi : phi.isPhi = true)
    (checked : phi.Checked) (kept : ∀ label ∈ phi.labels, gone label = false) :
    dropIncoming gone phi = phi := by
  have all : (phi.incoming.filter fun entry => !gone entry.1) = phi.incoming := by
    rw [List.filter_eq_self]
    intro entry member
    rw [kept entry.1 (List.of_mem_zip member).1]
    rfl
  obtain ⟨dest, ty, operands, isAction⟩ := Instr.exists_of_isPhi isPhi
  have fit := ((Instr.checked_compute_iff isAction).1 checked).2.2
  have labels : phi.incoming.map Prod.fst = operands.labels := by
    rw [Instr.incoming, Instr.labels, Instr.args, isAction]
    exact List.map_fst_zip (fit.labels_args rfl).le
  have args : phi.incoming.map Prod.snd = operands.args := by
    rw [Instr.incoming, Instr.labels, Instr.args, isAction]
    exact List.map_snd_zip (fit.labels_args rfl).ge
  rw [dropIncoming, all, Instr.withIncoming, labels, args]
  obtain ⟨action, pos, key⟩ := phi
  obtain rfl : action = _ := isAction
  rfl

/-- The names of the blocks that are not kept, in order. -/
def dropped (graph : FlowGraph) (keep : Block → Bool) : List String :=
  (graph.blocks.filter fun block => !keep block).map Block.name

/-- A flow graph with the blocks that are kept, in order, and without what their merges take from the
others. -/
def keeping (graph : FlowGraph) (keep : Block → Bool) : FlowGraph :=
  { graph with
    blocks := (graph.blocks.filter keep).map
      (Block.mapPhis (dropIncoming (graph.dropped keep).contains)) }

/-- The names dropped are those of the blocks that are not kept. -/
theorem contains_dropped (nodup : graph.names.Nodup) {keep : Block → Bool} {block : Block}
    (member : block ∈ graph.blocks) :
    (graph.dropped keep).contains block.name = !keep block := by
  rw [Bool.eq_iff_iff, List.contains_iff_mem, dropped, List.mem_map]
  constructor
  · rintro ⟨other, isOther, same⟩
    obtain ⟨inside, isDropped⟩ := List.mem_filter.1 isOther
    obtain rfl := List.inj_on_of_nodup_map nodup inside member same
    exact isDropped
  · exact fun isDropped => ⟨block, List.mem_filter.2 ⟨member, isDropped⟩, rfl⟩

/-- Removing unreachable blocks keeps those that are reachable. -/
theorem removeUnreachable_eq (wellFormed : graph.WellFormed) : ∃ keep : Block → Bool,
    (∀ block ∈ graph.blocks, keep block = true ↔ graph.Reachable block.name) ∧
      graph.removeUnreachable = (graph.dropped keep, graph.keeping keep) := by
  obtain ⟨keep, kept, isKept, isRemoved⟩ := exists_keep wellFormed.nodup_names
  refine ⟨keep, kept, ?_⟩
  rw [← dropped] at isRemoved
  unfold removeUnreachable
  dsimp only
  split
  · rename_i noneRemoved
    rw [isRemoved, List.isEmpty_iff] at noneRemoved
    -- Without names to drop, merges stay as they are, and all blocks do.
    have all : graph.blocks.filter keep = graph.blocks := by
      rw [List.filter_eq_self]
      intro block member
      by_contra isDropped
      rw [dropped, List.map_eq_nil_iff, List.filter_eq_nil_iff] at noneRemoved
      exact noneRemoved block member (by simpa using isDropped)
    have same : graph.blocks.map (Block.mapPhis (dropIncoming ([] : List String).contains)) =
        graph.blocks := by
      rw [List.map_congr_left (g := id), List.map_id]
      intro block member
      have unchanged : block.phis.map (dropIncoming ([] : List String).contains) = block.phis := by
        rw [List.map_congr_left (g := id), List.map_id]
        exact fun phi isPhi => dropIncoming_of_kept (Block.isPhi_of_mem_phis isPhi)
          ((wellFormed.blocks block member).checked phi (Block.mem_of_mem_phis isPhi)) fun _ _ => rfl
      rw [Block.mapPhis, unchanged, block.phis_append_body, id]
    rw [keeping, all, noneRemoved, same]
  · rw [isRemoved, isKept]
    rfl

/-- Removing unreachable blocks from a flow graph without merges keeps the reachable ones. -/
theorem pruned_of_removeUnreachable (wellFormed : graph.WellFormed)
    (unmerged : ∀ block ∈ graph.blocks, ∀ instr ∈ block.instrs, instr.isPhi = false) :
    Pruned graph graph.removeUnreachable.2 := by
  obtain ⟨keep, kept, isAfter⟩ := removeUnreachable_eq wellFormed
  rw [isAfter]
  refine pruned_of_filter wellFormed rfl rfl rfl keep ?_ kept
  -- Blocks without merges stay as they are.
  rw [keeping, List.map_congr_left (g := id), List.map_id]
  intro block member
  obtain ⟨noPhis, body⟩ := Block.phis_of_split (List.nil_append block.instrs).symm (by simp)
    (unmerged block (List.mem_filter.1 member).1)
  rw [Block.mapPhis, noPhis, body]
  rfl

/-- A flow graph yields without its unreachable blocks what it yields with them: runs stay among
reachable blocks. -/
theorem Pruned.refines {after : FlowGraph} (pruned : Pruned graph after)
    (wellFormed : graph.WellFormed) (machine : Machine) : graph.Refines machine after := by
  refine refines_of_simulation (fun _ block image _ env mirror => block = image ∧
    block ∈ graph.blocks ∧ graph.Reachable block.name ∧ env = mirror) fun calls => ⟨?_, ?_, ?_⟩
  · rintro block image source env mirror ⟨rfl, _⟩
    rfl
  · intro args env first bound isFirst
    obtain ⟨entry, isEntry, member, entry_eq⟩ := wellFormed.exists_entry
    obtain rfl := Option.some.inj (isFirst.symm.trans isEntry)
    refine ⟨env, first, by rw [pruned.params_eq, bound], by rw [pruned.head_eq, isFirst], rfl,
      member, ?_, rfl⟩
    rw [entry_eq]
    exact .refl _ _
  · rintro block image source env mirror lines next control ⟨rfl, member, reached, rfl⟩ ran
    refine ⟨next.env, ran, ?_⟩
    rintro label target rfl found
    obtain ⟨targetMember, rfl⟩ := (find?_eq_some_iff wellFormed.nodup_names).1 found
    have leads := (wellFormed.blocks block member).jump_mem ran
    have reachedTarget := reached.step (leads_of_mem wellFormed.nodup_names member leads)
    refine ⟨target, ?_, rfl, targetMember, reachedTarget, rfl⟩
    exact (find?_eq_some_iff pruned.wellFormed.nodup_names).2
      ⟨(pruned.mem_blocks target).2 ⟨targetMember, reachedTarget⟩, rfl⟩

end FlowGraph

end Midend
