import Midend.Proofs.FlowGraph.Recoded

/-! # Single assignment

What it means for a flow graph to be in single assignment: every variable is written once, merges
name each predecessor once, and whatever is read was written on every path before (`Ssa.InSsa`). -/

namespace Midend

namespace FlowGraph

/-- The variables that instructions write, in order. -/
def dests (graph : FlowGraph) : List String := graph.instrs.filterMap Instr.dest?

/-- The variables written are those of the blocks. -/
theorem mem_dests {graph : FlowGraph} {var : String} :
    var ∈ graph.dests ↔ ∃ block ∈ graph.blocks, var ∈ block.defs := by
  simp only [dests, instrs, Block.defs, List.mem_filterMap, List.mem_flatMap]
  constructor
  · rintro ⟨instr, ⟨block, member, inside⟩, isDest⟩
    exact ⟨block, member, instr, inside, isDest⟩
  · rintro ⟨block, member, instr, inside, isDest⟩
    exact ⟨instr, ⟨block, member, inside⟩, isDest⟩

/-- A block that dominates another one writes a variable. -/
def DefinedAbove (graph : FlowGraph) (name var : String) : Prop :=
  ∃ upper ∈ graph.blocks, var ∈ upper.defs ∧ graph.Dominates upper.name name

end FlowGraph

namespace Ssa

/-- A variable may be read in a block after some of its instructions: it is a parameter, was written
before in the block or in one that strictly dominates it, or is written nowhere. -/
def Available (graph : FlowGraph) (name : String) (before : List Instr) (var : String) : Prop :=
  var ∈ graph.paramNames ∨ var ∈ before.filterMap Instr.dest? ∨
    (∃ upper ∈ graph.blocks, var ∈ upper.defs ∧ upper.name ≠ name ∧
      graph.Dominates upper.name name) ∨ var ∉ graph.dests

/-- A variable may be read at the end of a block. -/
def AvailableAtEnd (graph : FlowGraph) (name var : String) : Prop :=
  var ∈ graph.paramNames ∨ graph.DefinedAbove name var ∨ var ∉ graph.dests

/-- Single assignment. -/
structure InSsa (graph : FlowGraph) : Prop where
  /-- No variable is written twice. -/
  nodup_dests : graph.dests.Nodup
  /-- No parameter is written. -/
  dest_notMem : ∀ dest ∈ graph.dests, dest ∉ graph.paramNames
  /-- Merges stand in front. -/
  phis_first : ∀ block ∈ graph.blocks, ∀ instr ∈ block.body, instr.isPhi = false
  /-- Merges name every predecessor once, and nothing else. -/
  phi_labels : ∀ block ∈ graph.blocks, ∀ phi ∈ block.phis,
    phi.labels.Perm (graph.predecessorsOf block.name)
  /-- Merges have a value for every label. -/
  phi_args : ∀ block ∈ graph.blocks, ∀ phi ∈ block.phis, phi.args.length = phi.labels.length
  /-- Other instructions read what is available. -/
  available : ∀ block ∈ graph.blocks, ∀ before instr after,
    block.instrs = before ++ instr :: after → instr.isPhi = false →
      ∀ arg ∈ instr.args, Available graph block.name before arg
  /-- Merges take what is available at the ends of the blocks they take it from. -/
  phi_available : ∀ block ∈ graph.blocks, ∀ phi ∈ block.phis, ∀ label arg,
    (label, arg) ∈ phi.incoming → AvailableAtEnd graph label arg

/-- A variable is written in one block only. -/
theorem InSsa.block_unique {graph : FlowGraph} (inSsa : InSsa graph) {left right : Block}
    (leftMember : left ∈ graph.blocks) (rightMember : right ∈ graph.blocks) {var : String}
    (inLeft : var ∈ left.defs) (inRight : var ∈ right.defs) : left = right := by
  have nodup := inSsa.nodup_dests
  rw [FlowGraph.dests, FlowGraph.instrs, List.filterMap_flatMap, List.nodup_flatMap] at nodup
  have symmetric : Std.Symm (Function.onFun List.Disjoint fun block : Block =>
      block.instrs.filterMap Instr.dest?) := ⟨fun _ _ apart => apart.symm⟩
  by_contra distinct
  exact nodup.2.forall leftMember rightMember distinct inLeft inRight

/-- What is available stays so when more was written before. -/
theorem Available.mono {graph : FlowGraph} {name var : String} {before other : List Instr}
    (available : Available graph name before var)
    (subset : ∀ dest ∈ before.filterMap Instr.dest?, dest ∈ other.filterMap Instr.dest?) :
    Available graph name other var := by
  rcases available with isParam | inBlock | above | nowhere
  · exact .inl isParam
  · exact .inr (.inl (subset var inBlock))
  · exact .inr (.inr (.inl above))
  · exact .inr (.inr (.inr nowhere))

/-- The variables that a block writes are written once in it. -/
theorem InSsa.nodup_defs {graph : FlowGraph} (inSsa : InSsa graph) {block : Block}
    (member : block ∈ graph.blocks) : block.defs.Nodup := by
  have nodup := inSsa.nodup_dests
  rw [FlowGraph.dests, FlowGraph.instrs, List.filterMap_flatMap, List.nodup_flatMap] at nodup
  exact nodup.1 block member

/-- Behind the merges of a block nothing is written twice. -/
theorem InSsa.nodup_body {graph : FlowGraph} (inSsa : InSsa graph) {block : Block}
    (member : block ∈ graph.blocks) : (block.body.filterMap Instr.dest?).Nodup := by
  have nodup := inSsa.nodup_defs member
  rw [Block.defs, ← block.phis_append_body, List.filterMap_append] at nodup
  exact nodup.of_append_right

/-- What a block writes is available only at the ends of blocks that it dominates. -/
theorem InSsa.dominates_of_available {graph : FlowGraph} (inSsa : InSsa graph) {block : Block}
    (member : block ∈ graph.blocks) {name var : String} (written : var ∈ block.defs)
    (available : AvailableAtEnd graph name var) : graph.Dominates block.name name := by
  have inDests := FlowGraph.mem_dests.2 ⟨block, member, written⟩
  rcases available with isParam | ⟨upper, upperMember, inUpper, dominates⟩ | nowhere
  · exact absurd isParam (inSsa.dest_notMem var inDests)
  · rwa [inSsa.block_unique member upperMember written inUpper]
  · exact absurd inDests nowhere

/-- What an instruction writes is not available before it. -/
theorem InSsa.not_available {graph : FlowGraph} (inSsa : InSsa graph) {block : Block}
    (member : block ∈ graph.blocks) {before rest : List Instr} {instr : Instr} {dest : String}
    (split : block.instrs = before ++ instr :: rest) (isDest : instr.dest? = some dest) :
    ¬Available graph block.name before dest := by
  have inDefs : dest ∈ block.defs :=
    List.mem_filterMap.2 ⟨instr, by rw [split]; simp, isDest⟩
  have inDests := FlowGraph.mem_dests.2 ⟨block, member, inDefs⟩
  rintro (isParam | inBlock | ⟨upper, upperMember, written, apart, _⟩ | nowhere)
  · exact inSsa.dest_notMem dest inDests isParam
  · have nodup := inSsa.nodup_defs member
    rw [Block.defs, split, List.filterMap_append, List.filterMap_cons_some isDest] at nodup
    exact List.disjoint_of_nodup_append nodup inBlock (List.mem_cons_self ..)
  · exact apart (congrArg Block.name (inSsa.block_unique upperMember member written inDefs))
  · exact nowhere inDests

end Ssa

end Midend
