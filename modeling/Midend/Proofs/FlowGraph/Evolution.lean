import Midend.Proofs.FlowGraph.Rebuild
import Midend.Proofs.FlowGraph.Remade
import Midend.Proofs.Ssa.Boundary
import Midend.Proofs.Ssa.Establish

/-! # Regular flow graphs

A flow graph is regular when it is well-formed, merges name the predecessors of their blocks and no
block has the empty name. Every operation on flow graphs keeps this (`FlowGraph.Evolves.regular`). -/

namespace Midend

namespace FlowGraph

/-- A well-formed flow graph in which merges name the predecessors of their blocks and no block has
the empty name. -/
structure Regular (graph : FlowGraph) : Prop where
  /-- It is well-formed. -/
  wellFormed : graph.WellFormed
  /-- Merges fit. -/
  phisFit : graph.PhisFit
  /-- No name is empty. -/
  named : "" ∉ graph.names

variable {graph middle after : FlowGraph}

/-- A flow graph whose blocks are made anew stays regular. -/
theorem Remade.regular (remade : graph.Remade after) (regular : graph.Regular) : after.Regular := by
  have recoded := remade.recoded
  refine ⟨recoded.wellFormed regular.wellFormed, fun image member phi isPhi => ?_, ?_⟩
  · obtain ⟨block, inside, block_remade⟩ := exists_of_forall₂_right remade.blocks member
    obtain ⟨old, isOld, same⟩ := block_remade.labels phi isPhi
    rw [same, recoded.predecessorsOf_eq, block_remade.name_eq]
    exact regular.phisFit block inside old isOld
  · rw [recoded.names_eq]
    exact regular.named

/-! ## Edges and unreachable blocks -/

/-- A flow graph with a split edge stays regular. -/
theorem EdgeSplit.regular {source target : String} {block : Block}
    (split : EdgeSplit graph source target block after) (regular : graph.Regular) :
    after.Regular := by
  refine ⟨split.wellFormed_after regular.wellFormed, split.phisFit regular.wellFormed regular.phisFit,
    fun empty => ?_⟩
  obtain ⟨other, member, isEmpty⟩ := List.mem_map.1 empty
  rcases split.mem_blocks.1 member with rfl | ⟨original, inside, rfl⟩
  · exact split.named isEmpty
  · rw [name_detour] at isEmpty
    exact regular.named (isEmpty ▸ List.mem_map_of_mem inside)

/-- Splitting an edge keeps a flow graph regular. -/
theorem Regular.of_splitEdge (regular : graph.Regular) {source target name : String}
    (split : graph.splitEdge source target = .ok (name, after)) : after.Regular := by
  rcases splitEdge_cases regular.wellFormed (splitEdge_eq_ok split).1 with
    ⟨block, other, splits, isSplit⟩ | ⟨failed, _⟩
  · obtain ⟨_, rfl⟩ := Prod.mk.inj (Except.ok.inj (splits.symm.trans split))
    exact isSplit.regular regular
  · rw [failed] at split
    cases split

/-- A merge is left with the labels that are not dropped. -/
theorem dropIncoming_spec {gone : String → Bool} {phi : Instr} (isPhi : phi.isPhi = true)
    (checked : phi.Checked) (left : phi.labels.filter (fun label => !gone label) ≠ []) :
    (dropIncoming gone phi).labels = phi.labels.filter (fun label => !gone label) ∧
      (dropIncoming gone phi).isPhi = true ∧ (dropIncoming gone phi).Checked := by
  obtain ⟨dest, ty, operands, isAction⟩ := Instr.exists_of_isPhi isPhi
  have fit := ((Instr.checked_compute_iff isAction).1 checked).2.2
  have labels_eq : phi.labels = operands.labels := by rw [Instr.labels, isAction]; rfl
  have args_eq : phi.args = operands.args := by rw [Instr.args, isAction]; rfl
  have firsts : phi.incoming.map Prod.fst = phi.labels :=
    List.map_fst_zip (by rw [labels_eq, args_eq, fit.labels_args rfl])
  have kept : (phi.incoming.filter fun entry => !gone entry.1).map Prod.fst =
      phi.labels.filter fun label => !gone label := by
    rw [← firsts, List.filter_map]
    rfl
  have isImage : (dropIncoming gone phi).action = .compute .phi dest ty { operands with
      args := (phi.incoming.filter fun entry => !gone entry.1).map Prod.snd
      labels := phi.labels.filter fun label => !gone label } := by
    rw [← kept, dropIncoming, Instr.withIncoming, isAction]
    rfl
  refine ⟨by rw [Instr.labels, isImage]; rfl, by rw [Instr.isPhi, isImage],
    (Instr.checked_compute_iff isImage).2 ⟨by decide, by decide, ?_⟩⟩
  refine ⟨fun arity isArity => absurd isArity.symm (Option.some_ne_none arity),
    fun count isCount => absurd isCount.symm (Option.some_ne_none count), fun _ => ?_,
    fun _ none => ?_, fit.funcs_length⟩
  · dsimp only
    rw [← kept, List.length_map, List.length_map]
  · refine left ?_
    rw [← kept, List.map_eq_nil_iff, ← List.map_eq_nil_iff (f := Prod.snd)]
    exact none

/-- A flow graph with some of its blocks, whose merges still name the others. -/
def selecting (graph : FlowGraph) (keep : Block → Bool) : FlowGraph :=
  { graph with blocks := graph.blocks.filter keep }

section Selecting

variable {keep : Block → Bool} (kept : ∀ block ∈ graph.blocks, keep block = true ↔
  graph.Reachable block.name)

/-- The predecessors among the blocks that are kept. -/
theorem predecessorsOf_selecting (nodup : graph.names.Nodup) (name : String) :
    (graph.selecting keep).predecessorsOf name =
      (graph.predecessorsOf name).filter fun label => !(graph.dropped keep).contains label := by
  unfold predecessorsOf
  rw [selecting, List.filter_map, List.filter_filter, List.filter_filter]
  refine congrArg (List.map Block.name) (List.filter_congr fun block member => ?_)
  rw [Function.comp_apply, contains_dropped nodup member, Bool.not_not, Bool.and_comm]

/-- The labels that a merge is left with are the predecessors of its block that are kept. -/
theorem Regular.perm_predecessorsOf_selecting (regular : graph.Regular) {block : Block}
    (member : block ∈ (graph.selecting keep).blocks) {phi : Instr} (isPhi : phi ∈ block.phis) :
    (phi.labels.filter fun label => !(graph.dropped keep).contains label).Perm
      ((graph.selecting keep).predecessorsOf block.name) := by
  rw [predecessorsOf_selecting regular.wellFormed.nodup_names]
  exact (regular.phisFit block (List.mem_filter.1 member).1 phi isPhi).filter _

include kept

/-- Keeping the reachable blocks prunes a flow graph. -/
theorem Regular.pruned_selecting (regular : graph.Regular) :
    Pruned graph (graph.selecting keep) :=
  pruned_of_filter regular.wellFormed rfl rfl rfl keep rfl kept

/-- A merge of a reachable block is left with a label. -/
theorem Regular.labels_ne_nil (regular : graph.Regular) {block : Block}
    (member : block ∈ (graph.selecting keep).blocks) {phi : Instr} (isPhi : phi ∈ block.phis) :
    phi.labels.filter (fun label => !(graph.dropped keep).contains label) ≠ [] := by
  intro none
  have pruned := regular.pruned_selecting kept
  have inGraph := (List.mem_filter.1 member).1
  have alone := regular.perm_predecessorsOf_selecting member isPhi
  rw [none, List.nil_perm] at alone
  by_cases isEntry : block.name = graph.entryName
  · -- Nothing leads to the entry, so it has no merges.
    have noLabels := regular.phisFit block inGraph phi isPhi
    rw [isEntry, regular.wellFormed.predecessorsOf_entry, List.perm_nil] at noLabels
    obtain ⟨dest, ty, operands, isAction⟩ := Instr.exists_of_isPhi (Block.isPhi_of_mem_phis isPhi)
    have checked := (regular.wellFormed.blocks block inGraph).checked phi
      (Block.mem_of_mem_phis isPhi)
    have fits := ((Instr.checked_compute_iff isAction).1 checked).2.2
    rw [Instr.labels, isAction] at noLabels
    refine fits.args_ne_nil rfl (List.length_eq_zero_iff.1 ?_)
    rw [← fits.labels_args rfl]
    exact congrArg List.length noLabels
  · -- Every other reachable block has a reachable predecessor.
    have entry_eq : (graph.selecting keep).entryName = graph.entryName :=
      entryName_of_head? pruned.head_eq
    obtain ⟨source, _, leads, _⟩ := Dominates.exists_source (pruned.reachable block member)
      (by rwa [entry_eq])
    have isSource := (mem_predecessorsOf_iff_leads pruned.wellFormed.nodup_names).2 leads
    rw [alone] at isSource
    cases isSource

/-- The merges of a reachable block without what they take from the blocks that are dropped. -/
theorem Regular.dropIncoming_spec (regular : graph.Regular) {block : Block}
    (member : block ∈ (graph.selecting keep).blocks) {phi : Instr} (isPhi : phi ∈ block.phis) :
    (dropIncoming (graph.dropped keep).contains phi).labels =
        phi.labels.filter (fun label => !(graph.dropped keep).contains label) ∧
      (dropIncoming (graph.dropped keep).contains phi).isPhi = true ∧
      (dropIncoming (graph.dropped keep).contains phi).Checked :=
  FlowGraph.dropIncoming_spec (Block.isPhi_of_mem_phis isPhi)
    ((regular.wellFormed.blocks block (List.mem_filter.1 member).1).checked phi
      (Block.mem_of_mem_phis isPhi))
    (regular.labels_ne_nil kept member isPhi)

/-- A reachable block is well-formed without what its merges take from the blocks that are dropped,
and leads to the same blocks. -/
theorem Regular.mapPhis_dropIncoming (regular : graph.Regular) {block : Block}
    (member : block ∈ (graph.selecting keep).blocks) :
    (block.mapPhis (dropIncoming (graph.dropped keep).contains)).successors = block.successors ∧
      (block.mapPhis (dropIncoming (graph.dropped keep).contains)).WellFormed ∧
      (block.mapPhis (dropIncoming (graph.dropped keep).contains)).phis =
        block.phis.map (dropIncoming (graph.dropped keep).contains) := by
  obtain ⟨successors, formed, phis, _⟩ :=
    (regular.wellFormed.blocks block (List.mem_filter.1 member).1).of_sameShape
      (block.phis.map (dropIncoming (graph.dropped keep).contains)) []
      (show (block.mapPhis (dropIncoming (graph.dropped keep).contains)).instrs =
        block.phis.map (dropIncoming (graph.dropped keep).contains) ++ ([] ++ block.body) from rfl)
      (fun phi isPhi => by
        obtain ⟨old, isOld, rfl⟩ := List.mem_map.1 isPhi
        exact (regular.dropIncoming_spec kept member isOld).2)
      (fun phi isPhi => absurd isPhi List.not_mem_nil)
      (List.forall₂_same.2 fun instr _ => .refl instr)
  exact ⟨successors, formed, phis⟩

/-- Keeping the reachable blocks, without what their merges take from the others, keeps a flow graph
regular. -/
theorem Regular.keeping (regular : graph.Regular) : (graph.keeping keep).Regular := by
  have pruned := regular.pruned_selecting kept
  have recoded : Recoded (graph.selecting keep) (graph.keeping keep) := by
    refine ⟨rfl, rfl, List.forall₂_map_right_iff.2 (List.forall₂_same.2 fun block member => ?_)⟩
    obtain ⟨successors, formed, _⟩ := regular.mapPhis_dropIncoming kept member
    exact ⟨rfl, successors, formed⟩
  refine ⟨recoded.wellFormed pruned.wellFormed, fun image member phi isPhi => ?_, fun empty => ?_⟩
  · obtain ⟨block, inside, rfl⟩ := List.mem_map.1 member
    rw [(regular.mapPhis_dropIncoming kept inside).2.2] at isPhi
    obtain ⟨old, isOld, rfl⟩ := List.mem_map.1 isPhi
    rw [recoded.predecessorsOf_eq, (regular.dropIncoming_spec kept inside isOld).1]
    exact regular.perm_predecessorsOf_selecting inside isOld
  · rw [recoded.names_eq] at empty
    exact regular.named ((List.filter_sublist.map Block.name).subset empty)

end Selecting

/-- Removing unreachable blocks keeps a flow graph regular. -/
theorem Regular.removeUnreachable (regular : graph.Regular) :
    graph.removeUnreachable.2.Regular := by
  obtain ⟨keep, kept, isAfter⟩ := removeUnreachable_eq regular.wellFormed
  rw [isAfter]
  exact regular.keeping kept

end FlowGraph

/-! ## Single assignment -/

namespace FlowGraph.Regular

variable {graph after : FlowGraph} {log : Log}

/-- The way into single assignment keeps a flow graph regular. -/
theorem of_construct (regular : graph.Regular) (constructed : Ssa.construct graph = .ok (after, log)) :
    after.Regular := by
  have unled : ¬∃ block ∈ graph.blocks, block.phis ≠ [] := fun merges => by
    obtain ⟨message, failed⟩ := (Ssa.construct_eq_malformed_iff graph).2 merges
    rw [failed] at constructed
    cases constructed
  have unmerged : ∀ block ∈ graph.blocks, ∀ instr ∈ block.instrs, instr.isPhi = false := by
    intro block member instr inside
    have noPhis : block.phis = [] := by
      by_contra merges
      exact unled ⟨block, member, merges⟩
    rw [← block.phis_append_body, noPhis, List.nil_append] at inside
    exact (regular.wellFormed.blocks block member).phis_first instr inside
  obtain ⟨pruned, dominance, records, isPruned, converted⟩ :=
    Ssa.converted_of_construct regular.wellFormed unmerged constructed
  have recoded := converted.recoded
  refine ⟨recoded.wellFormed converted.wellFormed, converted.inSsa.phi_labels, fun empty => ?_⟩
  rw [recoded.names_eq] at empty
  exact regular.named ((isPruned.sublist.map Block.name).subset empty)

/-- The way out of single assignment keeps a flow graph regular. -/
theorem of_destruct (regular : graph.Regular) (destructed : Ssa.destruct graph = .ok (after, log)) :
    after.Regular := by
  rcases Ssa.destruct_cases regular.wellFormed regular.phisFit with
    ⟨other, _, isOther, ⟨middle, series, _, lowered⟩, _⟩ | ⟨failed, _⟩
  · obtain ⟨rfl, _⟩ := Prod.mk.inj (Except.ok.inj (isOther.symm.trans destructed))
    have middleRegular : middle.Regular := series.induct Regular (fun split => split.regular) regular
    have recoded := lowered.recoded middleRegular.wellFormed
    refine ⟨recoded.wellFormed middleRegular.wellFormed, fun block member phi isPhi => ?_, ?_⟩
    · have notPhi := lowered.unmerged middleRegular.wellFormed block member phi
        (Block.mem_of_mem_phis isPhi)
      rw [Block.isPhi_of_mem_phis isPhi] at notPhi
      cases notPhi
    · rw [recoded.names_eq]
      exact middleRegular.named
  · rw [failed] at destructed
    cases destructed

/-- The flow graph of a function without merges is regular. -/
theorem of_build {function : Func} (built : build function = .ok (graph, log))
    (unmerged : ∀ instr ∈ function.instrs, instr.isPhi = false) : graph.Regular := by
  obtain ⟨wellFormed, noMerges⟩ := (builtFrom_of_build built).of_unmerged unmerged
  refine ⟨wellFormed, fun block member phi isPhi => ?_, ?_⟩
  · have notPhi := noMerges block member phi (Block.mem_of_mem_phis isPhi)
    rw [Block.isPhi_of_mem_phis isPhi] at notPhi
    cases notPhi
  · exact named_of_build built

end FlowGraph.Regular

/-! ## All operations -/

namespace FlowGraph

/-- One operation on a flow graph. -/
inductive Evolves (graph : FlowGraph) : FlowGraph → Prop where
  /-- An edge is split. -/
  | splitEdge {source target name : String} {after : FlowGraph} :
      graph.splitEdge source target = .ok (name, after) → Evolves graph after
  /-- Unreachable blocks are removed. -/
  | removeUnreachable : Evolves graph graph.removeUnreachable.2
  /-- The flow graph is brought into single assignment. -/
  | construct {after : FlowGraph} {log : Log} :
      Ssa.construct graph = .ok (after, log) → Evolves graph after
  /-- The flow graph is brought out of single assignment. -/
  | destruct {after : FlowGraph} {log : Log} :
      Ssa.destruct graph = .ok (after, log) → Evolves graph after
  /-- A pass is run, which may fail. -/
  | pass (pass : Pass) : Evolves graph (pass.run graph).graph
  /-- Copies are coalesced. -/
  | coalesce (interference : Interference) : Evolves graph (Coalescing.run graph interference).1

/-- Every operation keeps a flow graph regular. -/
theorem Evolves.regular {graph after : FlowGraph} (evolves : Evolves graph after)
    (regular : graph.Regular) : after.Regular := by
  cases evolves with
  | splitEdge split => exact regular.of_splitEdge split
  | removeUnreachable => exact regular.removeUnreachable
  | construct constructed => exact regular.of_construct constructed
  | destruct destructed => exact regular.of_destruct destructed
  | pass pass => exact (pass.remade_run regular.wellFormed).regular regular
  | coalesce interference =>
    exact (Coalescing.remade_run regular.wellFormed interference).regular regular

/-- So do all operations in a row. -/
theorem regular_of_evolves {graph after : FlowGraph}
    (evolves : Relation.ReflTransGen Evolves graph after) (regular : graph.Regular) :
    after.Regular := by
  induction evolves with
  | refl => exact regular
  | tail _ step earlier => exact step.regular earlier

end FlowGraph

end Midend
