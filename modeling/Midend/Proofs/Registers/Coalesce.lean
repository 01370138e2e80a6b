import Midend.Proofs.Instr
import Midend.Proofs.Registers.Interference
import Midend.Registers.Coalesce

/-! # Coalesced variables

Coalescing only renames variables. It never merges two that interfere, so variables that did interfere
have different names afterwards, and the interference graph that it leaves still covers them
(`Coalescing.exists_coalesced`). Liveness is not computed again. -/

namespace Midend

/-! ## Other names for all variables -/

/-- An instruction with other names for its variables. -/
def Instr.mapVars (change : String → String) (instr : Instr) : Instr :=
  (instr.mapArgs change).mapDest change

/-- A block with other names for its variables. -/
def Block.mapVars (change : String → String) (block : Block) : Block :=
  { block with instrs := block.instrs.map (Instr.mapVars change) }

/-- A flow graph with other names for the variables of its instructions. -/
def FlowGraph.mapVars (change : String → String) (graph : FlowGraph) : FlowGraph :=
  { graph with blocks := graph.blocks.map (Block.mapVars change) }

namespace Instr

variable (change : String → String) (instr : Instr)

@[simp] theorem dest?_mapVars : (instr.mapVars change).dest? = instr.dest?.map change := by
  rw [mapVars, dest?_mapDest, dest?_mapArgs]

@[simp] theorem args_mapVars : (instr.mapVars change).args = instr.args.map change := by
  rw [mapVars, args_mapDest, args_mapArgs]

@[simp] theorem labels_mapVars : (instr.mapVars change).labels = instr.labels := by
  rw [mapVars, labels_mapDest, labels_mapArgs]

@[simp] theorem isPhi_mapVars : (instr.mapVars change).isPhi = instr.isPhi := by
  rw [mapVars, isPhi_mapDest, isPhi_mapArgs]

@[simp] theorem isLabel_mapVars : (instr.mapVars change).isLabel = instr.isLabel := by
  rw [mapVars, isLabel_mapDest, isLabel_mapArgs]

@[simp] theorem isTerminator_mapVars :
    (instr.mapVars change).isTerminator = instr.isTerminator := by
  rw [mapVars, isTerminator_mapDest, isTerminator_mapArgs]

variable {instr} in
/-- Other names keep an instruction well-formed. -/
theorem Checked.mapVars (checked : instr.Checked) : (instr.mapVars change).Checked :=
  (checked.mapArgs change).mapDest change

/-- Names may be changed twice. -/
theorem mapVars_mapVars (second : String → String) :
    (instr.mapVars change).mapVars second = instr.mapVars (second ∘ change) := by
  obtain ⟨action, pos, key⟩ := instr
  cases action <;> simp [mapVars, mapArgs, mapDest, Action.mapOperands, Action.mapDest]

/-- Names that stay. -/
@[simp] theorem mapVars_id : instr.mapVars id = instr := by
  rw [mapVars, mapArgs_id, mapDest_id]

end Instr

namespace FlowGraph

/-- Names may be changed twice. -/
theorem mapVars_mapVars (graph : FlowGraph) (first second : String → String) :
    (graph.mapVars first).mapVars second = graph.mapVars (second ∘ first) := by
  unfold mapVars Block.mapVars
  simp only [List.map_map]
  congr 1
  refine List.map_congr_left fun block _ => ?_
  simp only [Function.comp_apply, List.map_map]
  congr 1
  exact List.map_congr_left fun instr _ => instr.mapVars_mapVars first second

/-- Names that stay. -/
@[simp] theorem mapVars_id (graph : FlowGraph) : graph.mapVars id = graph := by
  have instrs : ∀ block : Block, Block.mapVars id block = block := by
    intro block
    have same : (fun instr : Instr => instr.mapVars id) = id := funext Instr.mapVars_id
    show { block with instrs := block.instrs.map fun instr => instr.mapVars id } = block
    rw [same, List.map_id]
  show { graph with blocks := graph.blocks.map (Block.mapVars id) } = graph
  rw [funext instrs, List.map_id']

end FlowGraph

/-! ## Merges -/

namespace Coalescing

variable {graph after : FlowGraph} {interference merged : Interference}

/-- The sides of a copy that is merged are told apart and do not interfere; the one that loses its
name is no parameter. -/
theorem mergeOf?_eq_some {params : List String} {dest source old new : String}
    (isMerge : mergeOf? interference params dest source = some (old, new)) :
    dest ≠ source ∧ ¬interference.Adjacent dest source ∧ old ∉ params ∧
      ((source = old ∧ dest = new) ∨ (dest = old ∧ source = new)) := by
  unfold mergeOf? at isMerge
  split at isMerge
  · cases isMerge
  · rename_i free
    rw [not_or, Interference.interferes_iff] at free
    refine ⟨free.1, free.2, ?_⟩
    have notParam : ∀ {var}, params.contains var = false → var ∉ params := by
      intro var absent
      simpa using absent
    cases isSource : params.contains source with
    | false =>
      rw [isSource] at isMerge
      obtain ⟨rfl, rfl⟩ : source = old ∧ dest = new := by simpa using isMerge
      exact ⟨notParam isSource, .inl ⟨rfl, rfl⟩⟩
    | true =>
      cases isDest : params.contains dest with
      | false =>
        rw [isSource, isDest] at isMerge
        obtain ⟨rfl, rfl⟩ : dest = old ∧ source = new := by simpa using isMerge
        exact ⟨notParam isDest, .inr ⟨rfl, rfl⟩⟩
      | true =>
        rw [isSource, isDest] at isMerge
        cases isMerge

/-- Variables that are merged do not interfere, and no parameter loses its name. -/
theorem nextMerge?_spec (simple : interference.Simple) {old new : String}
    (next : nextMerge? graph interference = some (old, new)) :
    old ∉ graph.paramNames ∧ old ≠ new ∧ ¬interference.Adjacent old new := by
  obtain ⟨instr, _, isNext⟩ := List.exists_of_findSome?_eq_some next
  obtain ⟨⟨dest, source⟩, _, isMerge⟩ := Option.bind_eq_some_iff.1 isNext
  obtain ⟨apart, free, notParam, ⟨rfl, rfl⟩ | ⟨rfl, rfl⟩⟩ := mergeOf?_eq_some isMerge
  · exact ⟨notParam, Ne.symm apart, fun adjacent => free (simple.symm _ _ adjacent)⟩
  · exact ⟨notParam, apart, free⟩

/-- What coalescing makes of a flow graph: variables have other names, parameters keep theirs, and
what interferes still has different names. -/
structure Coalesced (change : String → String) (graph : FlowGraph) (interference : Interference)
    (after : FlowGraph) (merged : Interference) : Prop where
  /-- Only names are changed. -/
  graph_eq : after = graph.mapVars change
  /-- Parameters keep their names. -/
  params : ∀ param ∈ graph.paramNames, change param = param
  /-- The interference is known under the new names. -/
  contracts : interference.Contracts change merged

/-- Coalescing changes names. -/
theorem exists_coalesced (budget : Nat) (graph : FlowGraph) {interference : Interference}
    (simple : interference.Simple) :
    ∃ change, Coalesced change graph interference (mergeCopies budget graph interference).1
      (mergeCopies budget graph interference).2.1 := by
  have unchanged : ∀ graph, ∀ {interference : Interference}, interference.Simple →
      Coalesced id graph interference graph interference := fun graph _ simple =>
    ⟨graph.mapVars_id.symm, fun _ _ => rfl, fun _ member => member, fun _ _ adjacent => adjacent,
      simple⟩
  induction budget generalizing graph interference with
  | zero => exact ⟨id, unchanged graph simple⟩
  | succ budget budgetIH =>
    rw [mergeCopies]
    split
    · exact ⟨id, unchanged graph simple⟩
    · rename_i old new isNext
      obtain ⟨notParam, apart, free⟩ := nextMerge?_spec simple isNext
      have first := Interference.merge_spec simple apart free
      obtain ⟨change, rest⟩ := budgetIH (rename graph old new) first.simple
      refine ⟨change ∘ FlowGraph.replaceName old new, ⟨?_, fun param member => ?_, ?_⟩⟩
      · rw [← FlowGraph.mapVars_mapVars]
        exact rest.graph_eq
      · have keeps : FlowGraph.replaceName old new param = param :=
          if_neg fun same : param = old => notParam (same ▸ member)
        rw [Function.comp_apply, keeps]
        exact rest.params param member
      · exact ⟨fun node member => rest.contracts.nodes _ (first.nodes node member),
          fun left right adjacent => rest.contracts.adjacent _ _ (first.adjacent left right adjacent),
          rest.contracts.simple⟩

/-- An instruction that copies one variable to another. -/
theorem copySides?_eq_some {instr : Instr} {dest source : String}
    (sides : copySides? instr = some (dest, source)) : ∃ ty operands,
      instr.action = .compute .id dest ty operands ∧ operands.args = [source] := by
  unfold copySides? at sides
  split at sides
  · rename_i written ty operands isAction
    split at sides
    · rename_i read isArgs
      obtain ⟨rfl, rfl⟩ := Prod.mk.inj (Option.some.inj sides)
      exact ⟨ty, operands, isAction, isArgs⟩
    · cases sides
  · cases sides

/-- The sides of a copy under changed names. -/
theorem copySides?_mapVars (change : String → String) (instr : Instr) :
    copySides? (instr.mapVars change) =
      (copySides? instr).map fun sides => (change sides.1, change sides.2) := by
  obtain ⟨action, pos, key⟩ := instr
  cases action with
  | compute op dest ty operands =>
    obtain ⟨args, funcs, labels⟩ := operands
    cases op <;> first
      | rfl
      | cases args with
        | nil => rfl
        | cons first rest => cases rest <;> rfl
  | _ => rfl

/-- Whether an instruction copies one variable to another. -/
def isProperCopy (instr : Instr) : Bool :=
  (copySides? instr).any fun sides => sides.1 ≠ sides.2

/-- The number of copies of one variable to another. -/
def copyCount (graph : FlowGraph) : Nat := graph.instrs.countP isProperCopy

/-- A copy between variables with other names was one before. -/
theorem isProperCopy_of_mapVars {change : String → String} {instr : Instr}
    (isCopy : isProperCopy (instr.mapVars change) = true) : isProperCopy instr = true := by
  rw [isProperCopy, copySides?_mapVars, Option.any_map] at isCopy
  rw [isProperCopy, Option.any_eq_true] at *
  obtain ⟨sides, isSides, apart⟩ := isCopy
  refine ⟨sides, isSides, decide_eq_true fun same => ?_⟩
  exact of_decide_eq_true apart (congrArg change same)

/-- A merge leaves fewer copies of one variable to another. -/
theorem copyCount_rename_lt {old new : String}
    (next : nextMerge? graph interference = some (old, new)) :
    copyCount (rename graph old new) < copyCount graph := by
  obtain ⟨instr, member, isNext⟩ := List.exists_of_findSome?_eq_some next
  obtain ⟨⟨dest, source⟩, isSides, isMerge⟩ := Option.bind_eq_some_iff.1 isNext
  have renamed : (rename graph old new).instrs =
      graph.instrs.map (Instr.mapVars (FlowGraph.replaceName old new)) := by
    rw [FlowGraph.instrs, FlowGraph.instrs, rename, List.flatMap_map, List.map_flatMap]
    rfl
  obtain ⟨apart, _, _, isOld⟩ := mergeOf?_eq_some isMerge
  -- The copy that is merged is one no more.
  have gone : isProperCopy (instr.mapVars (FlowGraph.replaceName old new)) = false := by
    rw [isProperCopy, copySides?_mapVars, isSides]
    rcases isOld with ⟨rfl, rfl⟩ | ⟨rfl, rfl⟩ <;> simp [FlowGraph.replaceName]
  have isCopy : isProperCopy instr = true := by
    rw [isProperCopy, isSides]
    exact decide_eq_true apart
  obtain ⟨front, back, split⟩ := List.append_of_mem member
  have fewer := fun part : List Instr => @List.countP_mono_left _
    (isProperCopy ∘ Instr.mapVars (FlowGraph.replaceName old new)) isProperCopy part
    fun _ _ => isProperCopy_of_mapVars
  have inFront := fewer front
  have inBack := fewer back
  rw [copyCount, copyCount, renamed, List.countP_map, split, List.countP_append, List.countP_append,
    List.countP_cons_of_pos isCopy, List.countP_cons_of_neg (by simp [gone])]
  omega

/-- An instruction that copies a variable to itself. -/
theorem isSelfCopy_iff_copySides? {instr : Instr} :
    isSelfCopy instr = true ↔ ∃ var, copySides? instr = some (var, var) := by
  unfold isSelfCopy
  cases copySides? instr with
  | none => simp
  | some sides =>
    obtain ⟨dest, source⟩ := sides
    simp only [decide_eq_true_eq, Option.some.injEq, Prod.mk.injEq]
    constructor
    · rintro rfl
      exact ⟨dest, rfl, rfl⟩
    · rintro ⟨var, rfl, rfl⟩
      rfl

end Coalescing

end Midend
