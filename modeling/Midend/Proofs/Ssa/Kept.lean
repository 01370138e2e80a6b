import Mathlib.Data.List.Perm.Basic
import Midend.Proofs.Ssa.Form

/-! # Passes that keep single assignment

A pass that adds no definition, keeps the labels of merges and lets instructions read only what was
available keeps single assignment (`Ssa.InSsa.of_kept`). Definitions may be dropped: what nothing
writes any more may be read everywhere. -/

namespace Midend

namespace Ssa

/-- A block in the place of another one of a flow graph in single assignment. -/
structure Kept (graph after : FlowGraph) (block image : Block) : Prop where
  /-- Only variables that the block wrote are written, each once. -/
  defs : image.defs.Subperm block.defs
  /-- Merges have the labels of old ones and take what is available. -/
  phis : ∀ phi ∈ image.phis, ∃ original ∈ block.phis, phi.labels = original.labels ∧
    phi.args.length = original.args.length ∧
      ∀ label arg, (label, arg) ∈ phi.incoming → AvailableAtEnd graph label arg
  /-- Other instructions read what was available. -/
  args : ∀ before instr rest, image.instrs = before ++ instr :: rest → instr.isPhi = false →
    ∀ arg ∈ instr.args, ∃ earlier, Available graph block.name earlier arg ∧
      (arg ∈ earlier.filterMap Instr.dest? → arg ∈ after.dests →
        arg ∈ before.filterMap Instr.dest?)

variable {graph after : FlowGraph}

/-- The blocks of the new flow graph write only what the old ones wrote. -/
theorem subperm_dests
    (blocks : List.Forall₂ (fun block image : Block => image.defs.Subperm block.defs)
      graph.blocks after.blocks) : after.dests.Subperm graph.dests := by
  rw [FlowGraph.dests, FlowGraph.dests, FlowGraph.instrs, FlowGraph.instrs, List.filterMap_flatMap,
    List.filterMap_flatMap]
  generalize graph.blocks = left at blocks ⊢
  generalize after.blocks = right at blocks ⊢
  induction blocks with
  | nil => exact List.Subperm.refl _
  | cons head _ tailIH =>
    rw [List.flatMap_cons, List.flatMap_cons]
    exact ((List.subperm_append_right _).2 head).trans ((List.subperm_append_left _).2 tailIH)

/-- What a block above wrote is still written there, or nowhere. -/
theorem InSsa.defined_above (inSsa : InSsa graph)
    (blocks : List.Forall₂ (fun block image : Block => image.name = block.name ∧
      image.defs.Subperm block.defs) graph.blocks after.blocks)
    {upper : Block} (member : upper ∈ graph.blocks) {var : String} (written : var ∈ upper.defs) :
    (∃ image ∈ after.blocks, var ∈ image.defs ∧ image.name = upper.name) ∨ var ∉ after.dests := by
  by_cases still : var ∈ after.dests
  · obtain ⟨image, inside, inImage⟩ := FlowGraph.mem_dests.1 still
    obtain ⟨block, blockMember, name_eq, defs⟩ := exists_of_forall₂_right blocks inside
    have same := inSsa.block_unique member blockMember written (defs.subset inImage)
    exact .inl ⟨image, inside, inImage, same ▸ name_eq⟩
  · exact .inr still

/-- What was available is available. -/
theorem InSsa.available_of_recoded (inSsa : InSsa graph) (recoded : graph.Recoded after)
    (blocks : List.Forall₂ (fun block image : Block => image.name = block.name ∧
      image.defs.Subperm block.defs) graph.blocks after.blocks)
    {name var : String} {earlier before : List Instr} (available : Available graph name earlier var)
    (isBefore : var ∈ earlier.filterMap Instr.dest? → var ∈ after.dests →
      var ∈ before.filterMap Instr.dest?) : Available after name before var := by
  rcases available with isParam | inBlock | ⟨upper, member, written, apart, dominates⟩ | nowhere
  · refine .inl ?_
    rwa [FlowGraph.paramNames, recoded.params_eq]
  · by_cases still : var ∈ after.dests
    · exact .inr (.inl (isBefore inBlock still))
    · exact .inr (.inr (.inr still))
  · rcases inSsa.defined_above blocks member written with ⟨image, inside, inImage, sameName⟩ | gone
    · refine .inr (.inr (.inl ⟨image, inside, inImage, sameName ▸ apart, ?_⟩))
      rwa [recoded.dominates_eq, sameName]
    · exact .inr (.inr (.inr gone))
  · refine .inr (.inr (.inr fun still => nowhere ?_))
    exact (subperm_dests (blocks.imp fun _ _ facts => facts.2)).subset still

/-- What was available at the end of a block is available there. -/
theorem InSsa.availableAtEnd_of_recoded (inSsa : InSsa graph) (recoded : graph.Recoded after)
    (blocks : List.Forall₂ (fun block image : Block => image.name = block.name ∧
      image.defs.Subperm block.defs) graph.blocks after.blocks)
    {name var : String} (available : AvailableAtEnd graph name var) :
    AvailableAtEnd after name var := by
  rcases available with isParam | ⟨upper, member, written, dominates⟩ | nowhere
  · refine .inl ?_
    rwa [FlowGraph.paramNames, recoded.params_eq]
  · rcases inSsa.defined_above blocks member written with ⟨image, inside, inImage, sameName⟩ | gone
    · refine .inr (.inl ⟨image, inside, inImage, ?_⟩)
      rwa [recoded.dominates_eq, sameName]
    · exact .inr (.inr gone)
  · refine .inr (.inr fun still => nowhere ?_)
    exact (subperm_dests (blocks.imp fun _ _ facts => facts.2)).subset still

/-- A flow graph whose blocks are kept stays in single assignment. -/
theorem InSsa.of_kept (inSsa : InSsa graph) (recoded : graph.Recoded after)
    (kept : List.Forall₂ (Kept graph after) graph.blocks after.blocks) : InSsa after := by
  -- Both correspondences pair the same blocks, so they are read as one.
  have blocks : List.Forall₂ (fun block image : Block => (image.name = block.name ∧
      image.defs.Subperm block.defs) ∧ Kept graph after block image ∧ image.WellFormed)
      graph.blocks after.blocks := by
    have both := recoded.blocks
    generalize graph.blocks = left at both kept ⊢
    generalize after.blocks = right at both kept ⊢
    induction both with
    | nil => exact .nil
    | cons facts _ restIH =>
      rcases kept with _ | ⟨isKept, rest⟩
      exact .cons ⟨⟨facts.1, isKept.defs⟩, isKept, facts.2.2⟩ (restIH rest)
  have defs := blocks.imp fun _ _ facts => facts.1
  have subperm : after.dests.Subperm graph.dests := subperm_dests (defs.imp fun _ _ facts => facts.2)
  refine ⟨?_, fun dest member => ?_, fun image member => ?_, fun image member phi isPhi => ?_,
    fun image member phi isPhi => ?_, fun image member before instr rest split notPhi arg isArg => ?_,
    fun image member phi isPhi label arg incoming => ?_⟩
  · obtain ⟨list, perm, sublist⟩ := subperm
    exact perm.nodup_iff.1 (inSsa.nodup_dests.sublist sublist)
  · rw [FlowGraph.paramNames, recoded.params_eq]
    exact inSsa.dest_notMem dest (subperm.subset member)
  · obtain ⟨_, _, _, _, wellFormed⟩ := exists_of_forall₂_right blocks member
    exact wellFormed.phis_first
  · obtain ⟨block, inside, ⟨name_eq, _⟩, isKept, _⟩ := exists_of_forall₂_right blocks member
    obtain ⟨original, isOriginal, labels, _, _⟩ := isKept.phis phi isPhi
    rw [labels, recoded.predecessorsOf_eq, name_eq]
    exact inSsa.phi_labels block inside original isOriginal
  · obtain ⟨block, inside, _, isKept, _⟩ := exists_of_forall₂_right blocks member
    obtain ⟨original, isOriginal, labels, length, _⟩ := isKept.phis phi isPhi
    rw [labels, length]
    exact inSsa.phi_args block inside original isOriginal
  · obtain ⟨block, inside, ⟨name_eq, _⟩, isKept, _⟩ := exists_of_forall₂_right blocks member
    obtain ⟨earlier, available, isBefore⟩ := isKept.args before instr rest split notPhi arg isArg
    rw [name_eq]
    exact inSsa.available_of_recoded recoded defs available isBefore
  · obtain ⟨block, inside, _, isKept, _⟩ := exists_of_forall₂_right blocks member
    obtain ⟨_, _, _, _, available⟩ := isKept.phis phi isPhi
    exact inSsa.availableAtEnd_of_recoded recoded defs (available label arg incoming)

end Ssa

end Midend
