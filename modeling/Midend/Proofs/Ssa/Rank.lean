import Mathlib
import Midend.Proofs.Ssa.Form

/-! # Ranks of variables

In single assignment variables can be ranked such that what is available where a variable is written
ranks lower than that variable (`Ssa.rank_lt`). The rank depends only on the edges of the flow graph
and on what its blocks write (`Ssa.rank_eq`). -/

namespace Midend

namespace FlowGraph

/-- The names of the blocks, with what they write. -/
def outline (graph : FlowGraph) : List (String × List String) :=
  graph.blocks.map fun block => (block.name, block.defs)

/-- What is written is in the outline. -/
theorem dests_eq_outline (graph : FlowGraph) : graph.dests = graph.outline.flatMap Prod.snd := by
  rw [dests, instrs, outline, List.filterMap_flatMap, List.flatMap_map]
  rfl

open Classical in
/-- The number of blocks that strictly dominate a block. -/
noncomputable def depth (graph : FlowGraph) (name : String) : Nat :=
  (graph.names.toFinset.filter fun upper =>
    StrictlyDominates graph.Leads graph.entryName upper name).card

open Classical in
/-- A block is deeper than those that strictly dominate it. -/
theorem depth_lt {graph : FlowGraph} {upper lower : String} (isName : upper ∈ graph.names)
    (strict : StrictlyDominates graph.Leads graph.entryName upper lower) :
    graph.depth upper < graph.depth lower := by
  refine Finset.card_lt_card ⟨fun name inside => ?_, fun subset => ?_⟩
  · obtain ⟨inNames, apart, dominates⟩ := Finset.mem_filter.1 inside
    refine Finset.mem_filter.2 ⟨inNames, ?_, dominates.trans strict.2⟩
    rintro rfl
    exact strict.1 (strict.2.antisymm dominates)
  · -- A block does not strictly dominate itself.
    have itself := Finset.mem_filter.1
      (subset (Finset.mem_filter.2 ⟨List.mem_toFinset.2 isName, strict⟩))
    exact itself.2.1 rfl

/-- The rank of a variable: by the depth of the block that writes it, then by the place in that block.
What is not written has the lowest rank. -/
noncomputable def rank (graph : FlowGraph) (var : String) : Nat :=
  match graph.outline.find? fun entry => entry.2.contains var with
  | some entry => graph.depth entry.1 * (graph.dests.length + 1) + entry.2.idxOf var + 1
  | none => 0

/-- Ranks stay while edges and outline do. -/
theorem rank_eq {graph after : FlowGraph} (recoded : graph.Recoded after)
    (sameOutline : after.outline = graph.outline) : after.rank = graph.rank := by
  have sameDepth : after.depth = graph.depth := by
    funext name
    rw [depth, depth, recoded.names_eq, recoded.leads_eq, recoded.entryName_eq]
  funext var
  rw [rank, rank, dests_eq_outline, dests_eq_outline, sameOutline, sameDepth]

/-- What is not written has the lowest rank. -/
theorem rank_of_notMem {graph : FlowGraph} {var : String} (absent : var ∉ graph.dests) :
    graph.rank var = 0 := by
  have isNone : graph.outline.find? (fun entry => entry.2.contains var) = none := by
    refine List.find?_eq_none.2 fun entry member => ?_
    rw [List.contains_iff_mem]
    intro inside
    rw [dests_eq_outline] at absent
    exact absent (List.mem_flatMap.2 ⟨entry, member, inside⟩)
  rw [rank, isNone]

end FlowGraph

namespace Ssa

variable {graph : FlowGraph} {block : Block}

/-- The rank of a variable that a block writes. -/
theorem InSsa.rank_eq_of_mem (inSsa : InSsa graph) (member : block ∈ graph.blocks) {var : String}
    (isDef : var ∈ block.defs) :
    graph.rank var =
      graph.depth block.name * (graph.dests.length + 1) + block.defs.idxOf var + 1 := by
  have isFound : graph.outline.find? (fun entry => entry.2.contains var) =
      some (block.name, block.defs) := by
    cases found : graph.outline.find? (fun entry => entry.2.contains var) with
    | none =>
      have absent := List.find?_eq_none.1 found (block.name, block.defs)
        (List.mem_map.2 ⟨block, member, rfl⟩)
      exact absurd (List.contains_iff_mem.2 isDef) absent
    | some entry =>
      obtain ⟨other, isOther, rfl⟩ := List.mem_map.1 (List.mem_of_find?_eq_some found)
      have inOther : var ∈ other.defs := by simpa using List.find?_some found
      rw [inSsa.block_unique isOther member inOther isDef]
  rw [FlowGraph.rank, isFound]

/-- What is available where a variable is written ranks lower than that variable. -/
theorem InSsa.rank_lt (inSsa : InSsa graph) (member : block ∈ graph.blocks)
    {before rest : List Instr} {instr : Instr} {dest var : String}
    (split : block.instrs = before ++ instr :: rest) (isDest : instr.dest? = some dest)
    (available : Available graph block.name before var) : graph.rank var < graph.rank dest := by
  have defs_eq : block.defs = before.filterMap Instr.dest? ++ dest :: rest.filterMap Instr.dest? := by
    rw [Block.defs, split, List.filterMap_append, List.filterMap_cons_some isDest]
  have isDef : dest ∈ block.defs := by rw [defs_eq]; simp
  have destRank := inSsa.rank_eq_of_mem member isDef
  have lowest : var ∉ graph.dests → graph.rank var < graph.rank dest := fun absent => by
    rw [FlowGraph.rank_of_notMem absent, destRank]
    omega
  rcases available with isParam | inBlock | ⟨upper, upperMember, written, apart, dominates⟩ | nowhere
  · exact lowest fun isWritten => inSsa.dest_notMem var isWritten isParam
  · -- Earlier in the same block.
    have nodup := inSsa.nodup_defs member
    rw [defs_eq] at nodup
    have inDefs : var ∈ block.defs := by rw [defs_eq]; exact List.mem_append_left _ inBlock
    rw [inSsa.rank_eq_of_mem member inDefs, destRank, defs_eq, List.idxOf_append_of_mem inBlock,
      List.idxOf_append_of_notMem fun inside =>
        List.disjoint_of_nodup_append nodup inside (List.mem_cons_self ..)]
    have isEarlier := List.idxOf_lt_length_of_mem inBlock
    omega
  · -- In a block further up.
    have deeper := FlowGraph.depth_lt (List.mem_map_of_mem upperMember) ⟨apart, dominates⟩
    have inRange : upper.defs.idxOf var < graph.dests.length := by
      refine Nat.lt_of_lt_of_le (List.idxOf_lt_length_of_mem written) ?_
      rw [FlowGraph.dests, FlowGraph.instrs, List.filterMap_flatMap, List.flatMap_def]
      exact (List.sublist_flatten_of_mem (List.mem_map_of_mem upperMember)).length_le
    have scaled := Nat.mul_le_mul_right (graph.dests.length + 1) deeper
    rw [inSsa.rank_eq_of_mem upperMember written, destRank]
    rw [Nat.succ_mul] at scaled
    omega
  · exact lowest nowhere

end Ssa

end Midend
