import Midend.Proofs.FlowGraph.Build
import Midend.Proofs.FlowGraph.Unreachable

/-! # Blocks on edges

A new block on the edges between two blocks leads on to where they led, and merges name it in the
place of the block that control came from. What the splitting of an edge does is said once
(`FlowGraph.EdgeSplit`); the flow graph stays well-formed, merges still name the predecessors of
their blocks, and runs take one more step where they passed the edge
(`FlowGraph.EdgeSplit.refines`). -/

namespace Midend

/-! ## Other labels -/

namespace Instr

/-- Changes the labels of merges, and those of instructions that end a block. -/
def relabel (merges jumps : String → String) (instr : Instr) : Instr :=
  if instr.isPhi then instr.mapLabels merges
  else if instr.isTerminator then instr.mapLabels jumps
  else instr

section Relabel

variable (instr : Instr) (merges jumps change : String → String)

@[simp] theorem mapLabels_id : instr.mapLabels id = instr := by
  obtain ⟨action, pos, key⟩ := instr
  cases action <;> simp [mapLabels, Action.mapOperands]

@[simp] theorem mapLabels_mapLabels :
    (instr.mapLabels merges).mapLabels jumps = instr.mapLabels (jumps ∘ merges) := by
  obtain ⟨action, pos, key⟩ := instr
  cases action <;> simp [mapLabels, Action.mapOperands]

@[simp] theorem op?_mapLabels : (instr.mapLabels change).op? = instr.op? := by
  obtain ⟨action, pos, key⟩ := instr
  cases action <;> rfl

@[simp] theorem dest?_mapLabels : (instr.mapLabels change).dest? = instr.dest? := by
  obtain ⟨action, pos, key⟩ := instr
  cases action <;> rfl

@[simp] theorem args_mapLabels : (instr.mapLabels change).args = instr.args := by
  obtain ⟨action, pos, key⟩ := instr
  cases action <;> rfl

@[simp] theorem labels_mapLabels : (instr.mapLabels change).labels = instr.labels.map change := by
  obtain ⟨action, pos, key⟩ := instr
  cases action <;> rfl

@[simp] theorem isPhi_mapLabels : (instr.mapLabels change).isPhi = instr.isPhi := by
  obtain ⟨action, pos, key⟩ := instr
  cases action with
  | compute op dest ty operands => cases op <;> rfl
  | _ => rfl

@[simp] theorem isLabel_mapLabels : (instr.mapLabels change).isLabel = instr.isLabel := by
  obtain ⟨action, pos, key⟩ := instr
  cases action <;> rfl

@[simp] theorem isTerminator_mapLabels :
    (instr.mapLabels change).isTerminator = instr.isTerminator := by
  rw [isTerminator, op?_mapLabels, isTerminator]

/-- Either way the labels are changed alike. -/
theorem exists_relabel_eq : ∃ change, instr.relabel merges jumps = instr.mapLabels change := by
  unfold relabel
  split
  · exact ⟨merges, rfl⟩
  · split
    · exact ⟨jumps, rfl⟩
    · exact ⟨id, (mapLabels_id instr).symm⟩

@[simp] theorem op?_relabel : (instr.relabel merges jumps).op? = instr.op? := by
  obtain ⟨change, relabelled⟩ := exists_relabel_eq instr merges jumps
  rw [relabelled, op?_mapLabels]

@[simp] theorem dest?_relabel : (instr.relabel merges jumps).dest? = instr.dest? := by
  obtain ⟨change, relabelled⟩ := exists_relabel_eq instr merges jumps
  rw [relabelled, dest?_mapLabels]

@[simp] theorem args_relabel : (instr.relabel merges jumps).args = instr.args := by
  obtain ⟨change, relabelled⟩ := exists_relabel_eq instr merges jumps
  rw [relabelled, args_mapLabels]

@[simp] theorem isPhi_relabel : (instr.relabel merges jumps).isPhi = instr.isPhi := by
  obtain ⟨change, relabelled⟩ := exists_relabel_eq instr merges jumps
  rw [relabelled, isPhi_mapLabels]

@[simp] theorem isLabel_relabel : (instr.relabel merges jumps).isLabel = instr.isLabel := by
  obtain ⟨change, relabelled⟩ := exists_relabel_eq instr merges jumps
  rw [relabelled, isLabel_mapLabels]

@[simp] theorem isTerminator_relabel :
    (instr.relabel merges jumps).isTerminator = instr.isTerminator := by
  rw [isTerminator, op?_relabel, isTerminator]

/-- Instructions with as many other labels are as well-formed as before. -/
theorem Checked.mapLabels {instr : Instr} (checked : instr.Checked) (change : String → String) :
    (instr.mapLabels change).Checked := by
  have fits : ∀ {op operands}, Operands.Fit op operands →
      Operands.Fit op { operands with labels := operands.labels.map change } := by
    intro op operands fit
    refine ⟨fit.args_length, fun expected isCount => ?_, fun varies => ?_, fit.args_ne_nil,
      fit.funcs_length⟩
    · exact (List.length_map _).trans (fit.labels_length expected isCount)
    · exact (List.length_map _).trans (fit.labels_args varies)
  cases isAction : instr.action with
  | const dest ty value =>
    exact checked_const (by rw [Instr.mapLabels, isAction]; rfl)
  | compute op dest ty operands =>
    obtain ⟨isValue, notConst, fit⟩ := (checked_compute_iff isAction).1 checked
    exact (checked_compute_iff (by rw [Instr.mapLabels, isAction]; rfl)).2
      ⟨isValue, notConst, fits fit⟩
  | effect op operands =>
    obtain ⟨isEffect, fit, single⟩ := (checked_effect_iff isAction).1 checked
    exact (checked_effect_iff (by rw [Instr.mapLabels, isAction]; rfl)).2
      ⟨isEffect, fits fit, single⟩
  | label name =>
    rw [Checked, check, isAction] at checked
    rw [Checked, check, Instr.mapLabels, isAction]
    exact checked

end Relabel

end Instr

/-- How a run goes on at other labels. -/
def Control.relabel (change : String → String) : Control → Control
  | .next => .next
  | .jump label => .jump (change label)
  | .halt value => .halt value

namespace Instr

/-- An instruction with other labels that ends a block goes on at the other labels. -/
theorem exec_mapLabels (machine : Machine) (calls : Calls) {instr : Instr}
    (checked : instr.Checked) (ends : instr.isTerminator = true) (change : String → String)
    (state : State) :
    (instr.mapLabels change).exec machine calls state =
      (instr.exec machine calls state).map fun step => (step.1, step.2.relabel change) := by
  obtain ⟨action, pos, key⟩ := instr
  rcases terminator_cases checked ends with ⟨operands, target, isAction, args, labels⟩ |
    ⟨operands, condition, positive, negative, isAction, args, labels⟩ | ⟨operands, isAction, labels⟩
  · obtain rfl : action = _ := isAction
    simp [mapLabels, Action.mapOperands, exec, reads, Action.reads, Action.perform,
      Action.performEffect, labels, Control.relabel, State.after, dest?, Action.dest?]
  · obtain rfl : action = _ := isAction
    simp only [mapLabels, Action.mapOperands, exec, reads, Action.reads, Action.perform,
      Action.performEffect, labels, args, dest?, Action.dest?, List.take_succ_cons, List.take_zero]
    cases state.env.read [condition] with
    | none => rfl
    | some values =>
      simp only [Option.bind_eq_bind, Option.bind_some]
      split <;> simp [Control.relabel, State.after]
  · obtain rfl : action = _ := isAction
    simp only [mapLabels, Action.mapOperands, exec, reads, Action.reads, Action.perform,
      Action.performEffect, dest?, Action.dest?]
    cases state.env.read (operands.args.take 1) with
    | none => rfl
    | some values =>
      simp only [Option.bind_eq_bind, Option.bind_some]
      split
      · split <;> simp [Control.relabel, State.after]
      · simp [Control.relabel, State.after]

/-- A list that is ended by an instruction with other labels goes on at the other labels. -/
theorem execAll_concat_mapLabels (machine : Machine) (calls : Calls) {front : List Instr}
    {terminator : Instr} (plain : ∀ instr ∈ front, instr.isTerminator = false)
    (checked : terminator.Checked) (ends : terminator.isTerminator = true)
    (change : String → String) (state : State) :
    execAll machine calls (front ++ [terminator.mapLabels change]) state =
      (execAll machine calls (front ++ [terminator]) state).map fun step =>
        (step.1, step.2.relabel change) := by
  refine Option.ext fun ⟨next, control⟩ => ?_
  rw [Option.map_eq_some_iff, execAll_concat_iff plain]
  simp only [exec_mapLabels machine calls checked ends, Option.map_eq_some_iff]
  constructor
  · rintro ⟨between, ran, step, last, goes⟩
    exact ⟨step, (execAll_concat_iff plain).2 ⟨between, ran, last⟩, goes⟩
  · rintro ⟨step, ran, goes⟩
    obtain ⟨between, ran, last⟩ := (execAll_concat_iff plain).1 ran
    exact ⟨between, ran, step, last, goes⟩

/-- What is found by a label is found by the other one, if no other label becomes the same. -/
theorem lookup_map_zip {labels args : List String} {source : String} {change : String → String}
    (apart : ∀ label ∈ labels, change label = change source → label = source) :
    ((labels.map change).zip args).lookup (change source) = (labels.zip args).lookup source := by
  induction labels generalizing args with
  | nil => rfl
  | cons label labels labelsIH =>
    cases args with
    | nil => rfl
    | cons arg args =>
      rw [List.map_cons, List.zip_cons_cons, List.zip_cons_cons, List.lookup_cons, List.lookup_cons]
      by_cases same : source = label
      · rw [same, beq_self_eq_true, beq_self_eq_true]
      · have other : change source ≠ change label := fun isSame =>
          same (apart label (List.mem_cons_self ..) isSame.symm).symm
        rw [beq_eq_false_iff_ne.2 same, beq_eq_false_iff_ne.2 other]
        exact labelsIH fun other member => apart other (List.mem_cons_of_mem _ member)

/-- Merges with other labels are entered from the other label as they were. -/
theorem enter_relabel {phis : List Instr} {source : Option String} {merges : String → String}
    (jumps : String → String) (areMerges : ∀ phi ∈ phis, phi.isPhi = true)
    (apart : ∀ name, source = some name → ∀ phi ∈ phis, ∀ label ∈ phi.labels,
      merges label = merges name → label = name) (env : Env) :
    enter (phis.map (relabel merges jumps)) (source.map merges) env = enter phis source env := by
  cases source with
  | none =>
    unfold enter
    rw [List.isEmpty_map]
    rfl
  | some source =>
    rw [Option.map_some, enter_some, enter_some]
    congr 1
    replace apart := apart source rfl
    induction phis with
    | nil => rfl
    | cons phi rest restIH =>
      have here : (phi.relabel merges jumps).select (merges source) env = phi.select source env := by
        have isPhi := areMerges phi (List.mem_cons_self ..)
        rw [select, select, dest?_relabel, relabel, if_pos isPhi, incoming, labels_mapLabels,
          args_mapLabels, lookup_map_zip (apart phi (List.mem_cons_self ..))]
        rfl
      rw [List.map_cons, List.mapM_cons, List.mapM_cons, here,
        restIH (fun phi member => areMerges phi (List.mem_cons_of_mem _ member))
          fun phi member => apart phi (List.mem_cons_of_mem _ member)]

end Instr

/-! ## Blocks -/

namespace Block

/-- Changes the labels of merges and of the instruction that ends the block. -/
def relabel (merges jumps : String → String) (block : Block) : Block :=
  { block with instrs := block.instrs.map (Instr.relabel merges jumps) }

section Relabel

variable {block : Block} (merges jumps : String → String)

@[simp] theorem name_relabel : (block.relabel merges jumps).name = block.name := rfl

/-- The merges with their labels changed. -/
theorem phis_relabel :
    (block.relabel merges jumps).phis = block.phis.map (Instr.relabel merges jumps) := by
  have same : Instr.isPhi ∘ Instr.relabel merges jumps = Instr.isPhi := by
    funext instr
    exact Instr.isPhi_relabel instr merges jumps
  rw [phis, relabel, List.takeWhile_map, same]
  rfl

/-- The rest with its labels changed. -/
theorem body_relabel :
    (block.relabel merges jumps).body = block.body.map (Instr.relabel merges jumps) := by
  have same : Instr.isPhi ∘ Instr.relabel merges jumps = Instr.isPhi := by
    funext instr
    exact Instr.isPhi_relabel instr merges jumps
  rw [body, relabel, List.dropWhile_map, same]
  rfl

/-- What stands between the merges and the end of a block has no labels to change. -/
theorem map_relabel_of_plain {instrs : List Instr}
    (plain : ∀ instr ∈ instrs, instr.isPhi = false ∧ instr.isTerminator = false) :
    instrs.map (Instr.relabel merges jumps) = instrs := by
  rw [List.map_congr_left, List.map_id]
  intro instr member
  obtain ⟨notPhi, goesOn⟩ := plain instr member
  rw [Instr.relabel, notPhi, goesOn]
  rfl

/-- The body of a block with its labels changed: only its last instruction has labels. -/
theorem WellFormed.exists_relabelled (wellFormed : block.WellFormed) :
    ∃ middle terminator, block.body = middle ++ [terminator] ∧
      (block.relabel merges jumps).body = middle ++ [terminator.mapLabels jumps] ∧
      terminator ∈ block.instrs ∧ terminator.Checked ∧ terminator.isTerminator = true ∧
      ∀ instr ∈ middle, instr.isPhi = false ∧ instr.isTerminator = false := by
  obtain ⟨middle, terminator, body_eq, split, goesOn, ends⟩ := wellFormed.exists_body
  have plain : ∀ instr ∈ middle, instr.isPhi = false ∧ instr.isTerminator = false :=
    fun instr member => ⟨wellFormed.phis_first instr (by
      rw [body_eq]
      exact List.mem_append_left _ member), goesOn instr member⟩
  have member : terminator ∈ block.instrs := by rw [split]; simp
  refine ⟨middle, terminator, body_eq, ?_, member, wellFormed.checked _ member, ends, plain⟩
  have notPhi := wellFormed.phis_first terminator (by rw [body_eq]; simp)
  rw [body_relabel, body_eq, List.map_append, map_relabel_of_plain merges jumps plain, List.map_cons,
    List.map_nil, Instr.relabel, notPhi, if_neg Bool.false_ne_true, if_pos ends]

/-- A block with its labels changed leads to the changed labels. -/
theorem WellFormed.mem_successors_relabel (wellFormed : block.WellFormed) {target : String} :
    target ∈ (block.relabel merges jumps).successors ↔
      ∃ label ∈ block.successors, jumps label = target := by
  obtain ⟨middle, terminator, body_eq, body_eq', _, checked, ends, _⟩ :=
    wellFormed.exists_relabelled merges jumps
  have split : block.instrs = (block.phis ++ middle) ++ [terminator] := by
    conv_lhs => rw [← block.phis_append_body, body_eq]
    rw [List.append_assoc]
  have split' : (block.relabel merges jumps).instrs =
      ((block.relabel merges jumps).phis ++ middle) ++ [terminator.mapLabels jumps] := by
    conv_lhs => rw [← (block.relabel merges jumps).phis_append_body, body_eq']
    rw [List.append_assoc]
  have ends' : (terminator.mapLabels jumps).isTerminator = true := by
    rwa [Instr.isTerminator_mapLabels]
  rw [successors_of_terminator (terminator?_of_split split' ends') (checked.mapLabels jumps) ends',
    successors_of_terminator (terminator?_of_split split ends) checked ends, List.mem_eraseDups,
    Instr.labels_mapLabels, List.mem_map]
  simp only [List.mem_eraseDups]

/-- A block with its labels changed stays well-formed. -/
theorem WellFormed.relabel (wellFormed : block.WellFormed) :
    (block.relabel merges jumps).WellFormed := by
  obtain ⟨front, terminator, split, goesOn, ends⟩ := wellFormed.exists_end
  have each : ∀ {holds : Instr → Prop}, (∀ instr ∈ block.instrs,
      holds (instr.relabel merges jumps)) → ∀ instr ∈ (block.relabel merges jumps).instrs,
      holds instr := by
    intro holds all instr member
    obtain ⟨original, inside, rfl⟩ := List.mem_map.1 member
    exact all original inside
  refine ⟨⟨front.map (Instr.relabel merges jumps), terminator.relabel merges jumps, ?_, ?_, ?_⟩,
    each fun instr member => ?_, each fun instr member => ?_, ?_⟩
  · rw [Block.relabel, split, List.map_append]
    rfl
  · intro instr member
    obtain ⟨original, inside, rfl⟩ := List.mem_map.1 member
    rw [Instr.isTerminator_relabel]
    exact goesOn original inside
  · rwa [Instr.isTerminator_relabel]
  · obtain ⟨change, relabelled⟩ := Instr.exists_relabel_eq instr merges jumps
    rw [relabelled]
    exact (wellFormed.checked instr member).mapLabels change
  · rw [Instr.isLabel_relabel]
    exact wellFormed.unlabelled instr member
  · rw [body_relabel]
    intro instr member
    obtain ⟨original, inside, rfl⟩ := List.mem_map.1 member
    rw [Instr.isPhi_relabel]
    exact wellFormed.phis_first original inside

/-- A block with its labels changed, entered from the changed label, does what it did and goes on at
the changed label. -/
theorem WellFormed.exec_relabel (wellFormed : block.WellFormed) {source : Option String}
    {merges : String → String}
    (apart : ∀ name, source = some name → ∀ phi ∈ block.phis, ∀ label ∈ phi.labels,
      merges label = merges name → label = name) (machine : Machine) (calls : Calls)
    (state : State) :
    (block.relabel merges jumps).exec machine calls (source.map merges) state =
      (block.exec machine calls source state).map fun step => (step.1, step.2.relabel jumps) := by
  obtain ⟨middle, terminator, body_eq, body_eq', _, checked, ends, plain⟩ :=
    wellFormed.exists_relabelled merges jumps
  rw [exec, exec, phis_relabel, Instr.enter_relabel jumps (fun _ => isPhi_of_mem_phis) apart,
    body_eq, body_eq']
  cases Instr.enter block.phis source state.env with
  | none => rfl
  | some env =>
    exact Instr.execAll_concat_mapLabels machine calls (fun instr member => (plain instr member).2)
      checked ends jumps _

end Relabel

/-- Changing the labels of the last instruction is changing no labels of merges. -/
theorem WellFormed.mapTerminator_eq {block : Block} (wellFormed : block.WellFormed)
    (change : String → String) :
    block.mapTerminator (Instr.mapLabels change) = block.relabel id change := by
  obtain ⟨front, terminator, split, goesOn, ends⟩ := wellFormed.exists_end
  have same : front.map (Instr.relabel id change) = front := by
    rw [List.map_congr_left, List.map_id]
    intro instr member
    rw [Instr.relabel, Instr.mapLabels_id, goesOn instr member]
    simp
  have notPhi : ¬terminator.isPhi = true := fun isPhi => by
    rw [isTerminator_of_isPhi isPhi] at ends
    cases ends
  rw [mapTerminator, terminator?_of_split split ends, Block.relabel]
  simp [split, same, Instr.relabel, notPhi, ends]

/-- Changing the labels of leading merges is changing those of no other instruction. -/
theorem WellFormed.mapPhis_eq {block : Block} (wellFormed : block.WellFormed)
    (change : String → String) :
    block.mapPhis (Instr.mapLabels change) = block.relabel change id := by
  have merges : block.phis.map (Instr.relabel change id) =
      block.phis.map (Instr.mapLabels change) :=
    List.map_congr_left fun phi member => by rw [Instr.relabel, if_pos (isPhi_of_mem_phis member)]
  have others : block.body.map (Instr.relabel change id) = block.body := by
    rw [List.map_congr_left, List.map_id]
    intro instr member
    rw [Instr.relabel, wellFormed.phis_first instr member, Instr.mapLabels_id]
    simp
  rw [mapPhis, Block.relabel]
  conv_rhs => rw [← block.phis_append_body, List.map_append, merges, others]

@[simp] theorem relabel_id (block : Block) : block.relabel id id = block := by
  have same : block.instrs.map (Instr.relabel id id) = block.instrs := by
    rw [List.map_congr_left, List.map_id]
    intro instr _
    simp [Instr.relabel]
  rw [relabel, same]

/-- Changing the labels of the end of a block and then those of its merges. -/
theorem relabel_relabel (block : Block) (merges jumps : String → String) :
    (block.relabel id jumps).relabel merges id = block.relabel merges jumps := by
  rw [relabel, relabel, relabel, List.map_map]
  congr 1
  refine List.map_congr_left fun instr _ => ?_
  rw [Function.comp_apply, Instr.relabel, Instr.isPhi_relabel, Instr.isTerminator_relabel,
    Instr.relabel, Instr.relabel]
  split
  · rw [Instr.mapLabels_id]
  · split
    · rw [Instr.mapLabels_id]
    · rfl

end Block

/-! ## Splitting an edge -/

namespace FlowGraph

/-- A block with a new name is put in. -/
theorem insertBlock_of_notMem {graph : FlowGraph} {block : Block} (fresh : block.name ∉ graph.names)
    (place : Nat) : graph.insertBlock place block =
      .ok { graph with blocks := graph.blocks.take place ++ block :: graph.blocks.drop place } := by
  rw [insertBlock, if_neg (by rwa [hasBlock_iff])]

/-- What becomes of the blocks when a block is put on the edges between two of them: the source leads
to the new block, and merges in the target name it. -/
def detour (source target middle : String) (block : Block) : Block :=
  block.relabel (if block.name = target then replaceName source middle else id)
    (if block.name = source then replaceName target middle else id)

@[simp] theorem name_detour (source target middle : String) (block : Block) :
    (detour source target middle block).name = block.name := rfl

/-- A run that goes from one block to another passes the edge or sees the names it saw before. -/
theorem passes_or_stays (source target middle block onward : String) :
    block = source ∧ onward = target ∨
      (if block = source then replaceName target middle else id) onward = onward ∧
        (if onward = target then replaceName source middle else id) block = block := by
  by_cases passes : block = source ∧ onward = target
  · exact .inl passes
  · refine .inr ⟨?_, ?_⟩
    · split
      · rename_i isSource
        exact if_neg fun isTarget => passes ⟨isSource, isTarget⟩
      · rfl
    · split
      · rename_i isTarget
        exact if_neg fun isSource => passes ⟨isSource, isTarget⟩
      · rfl

/-- A flow graph before the new block is put in. -/
def detoured (graph : FlowGraph) (source target middle : String) (nextBlock : Nat) : FlowGraph :=
  { graph with blocks := graph.blocks.map (detour source target middle), nextBlock }

/-- Changing the end of the source and then the merges of the target makes both make way. -/
theorem modifyBlock_modifyBlock_eq_detoured {graph : FlowGraph} (wellFormed : graph.WellFormed)
    (source target middle : String) (nextBlock : Nat) :
    (({ graph with nextBlock } : FlowGraph).modifyBlock source
        (Block.mapTerminator (Instr.mapLabels (replaceName target middle)))).modifyBlock target
        (Block.mapPhis (Instr.mapLabels (replaceName source middle))) =
      graph.detoured source target middle nextBlock := by
  have blocks_eq : ((({ graph with nextBlock } : FlowGraph).modifyBlock source
      (Block.mapTerminator (Instr.mapLabels (replaceName target middle)))).modifyBlock target
      (Block.mapPhis (Instr.mapLabels (replaceName source middle)))).blocks =
      graph.blocks.map (detour source target middle) := by
    rw [modifyBlock, modifyBlock, List.map_map]
    refine List.map_congr_left fun other inside => ?_
    have otherFormed := wellFormed.blocks other inside
    rw [Function.comp_apply, otherFormed.mapTerminator_eq, detour]
    split
    · rw [Block.name_relabel]
      split
      · rw [(otherFormed.relabel id _).mapPhis_eq, Block.relabel_relabel]
      · rfl
    · split
      · rw [otherFormed.mapPhis_eq]
      · rw [Block.relabel_id]
  rw [detoured, ← blocks_eq]
  rfl

/-- A new block stands on the edges between two blocks. -/
structure EdgeSplit (graph : FlowGraph) (source target : String) (middle : Block)
    (after : FlowGraph) : Prop where
  /-- The function keeps its name. -/
  name_eq : after.name = graph.name
  /-- The parameters stay. -/
  params_eq : after.params = graph.params
  /-- One key is used up. -/
  nextKey_eq : after.nextKey = graph.nextKey + 1
  /-- There was an edge. -/
  leads : graph.Leads source target
  /-- The new block has a new name. -/
  fresh : middle.name ∉ graph.names
  /-- That name is not empty. -/
  named : middle.name ≠ ""
  /-- The new block jumps to the target. -/
  jumps : ∃ jump, middle.instrs = [jump] ∧ jump.action = (Instr.jmp target).action
  /-- The new block stands behind the entry, and the others make way for it. -/
  exists_blocks : ∃ front back, front ≠ [] ∧ graph.blocks = front ++ back ∧
    after.blocks = front.map (detour source target middle.name) ++
      middle :: back.map (detour source target middle.name)

/-- What splitting an edge makes of a flow graph: the new block stands right behind the source, and the
others make way for it. -/
theorem splitEdge_eq {graph : FlowGraph} (wellFormed : graph.WellFormed) {source target : String}
    (leads : graph.Leads source target) : ∃ middle front block back nextBlock,
      middle ∉ graph.names ∧ middle ≠ "" ∧ block.name = source ∧
        graph.blocks = front ++ block :: back ∧
        graph.splitEdge source target =
          if graph.nextKey + 1 < keyLimit then
            .ok (middle, { graph with
              blocks := front.map (detour source target middle) ++
                detour source target middle block ::
                  ⟨middle, [(Instr.jmp target).withKey graph.nextKey]⟩ ::
                    back.map (detour source target middle)
              nextKey := graph.nextKey + 1
              nextBlock })
          else .error .keysExhausted := by
  obtain ⟨block, found, isSuccessor⟩ := leads_iff.1 leads
  obtain ⟨member, rfl⟩ := (find?_eq_some_iff wellFormed.nodup_names).1 found
  obtain ⟨front, back, isBlocks⟩ := List.append_of_mem member
  have isIndex : graph.indexOf? block.name = some front.length :=
    (indexOf?_eq_some_iff wellFormed.nodup_names).2 ⟨block, by simp [isBlocks], rfl⟩
  have isTarget : graph.hasBlock target = true :=
    hasBlock_iff.2 (wellFormed.mem_names_of_leads leads)
  have fresh := graph.freshBlockName_notMem
  have notEmpty := graph.freshBlockName_ne_empty
  obtain ⟨middle, nextBlock, named⟩ : ∃ middle nextBlock,
      graph.freshBlockName = (middle, { graph with nextBlock }) := ⟨_, _, rfl⟩
  rw [named] at fresh notEmpty
  have hasEdge : (graph.successorsOf block.name).contains target = true := by
    rw [List.contains_iff_mem]
    exact leads
  -- None of the checks fails, so what is left is to give out a key and to insert the new block.
  have split : graph.splitEdge block.name target = (do
      let fresh ← (graph.detoured block.name target middle nextBlock).freshKey
      let after ← fresh.2.insertBlock (front.length + 1)
        ⟨middle, [(Instr.jmp target).withKey fresh.1]⟩
      return (middle, after)) := by
    rw [← modifyBlock_modifyBlock_eq_detoured wellFormed]
    unfold splitEdge
    simp only [isIndex, isTarget, named, hasEdge, Bool.not_true, Bool.false_eq_true, if_false]
  refine ⟨middle, front, block, back, nextBlock, fresh, notEmpty, rfl, isBlocks, ?_⟩
  rw [split]
  by_cases room : graph.nextKey + 1 < keyLimit
  · have given : (graph.detoured block.name target middle nextBlock).freshKey = .ok (graph.nextKey,
        { graph.detoured block.name target middle nextBlock with nextKey := graph.nextKey + 1 }) :=
      if_pos room
    rw [if_pos room, given, Attempt.ok_bind,
      insertBlock_of_notMem (by rw [names, detoured, List.map_map]; exact fresh), Attempt.ok_bind]
    simp [detoured, isBlocks, List.take_append, List.drop_append, List.take_of_length_le,
      List.drop_of_length_le]
  · have failed : (graph.detoured block.name target middle nextBlock).freshKey =
      .error .keysExhausted := if_neg room
    rw [if_neg room, failed]
    rfl

/-- An edge is split unless keys run out. -/
theorem splitEdge_cases {graph : FlowGraph} (wellFormed : graph.WellFormed)
    {source target : String} (leads : graph.Leads source target) :
    (∃ middle after, graph.splitEdge source target = .ok (middle.name, after) ∧
      EdgeSplit graph source target middle after) ∨
    (graph.splitEdge source target = .error .keysExhausted ∧ keyLimit ≤ graph.nextKey + 1) := by
  obtain ⟨middle, front, block, back, nextBlock, fresh, named, isSource, isBlocks, split⟩ :=
    splitEdge_eq wellFormed leads
  rw [split]
  split
  · exact .inl ⟨⟨middle, [(Instr.jmp target).withKey graph.nextKey]⟩, _, rfl, rfl, rfl, rfl, leads,
      fresh, named, ⟨_, rfl, rfl⟩, front ++ [block], back, by simp, by simp [isBlocks], by simp⟩
  · rename_i many
    exact .inr ⟨rfl, Nat.not_lt.1 many⟩

namespace EdgeSplit

variable {graph after : FlowGraph} {source target : String} {middle : Block}

/-- The blocks are the new one and the old ones, which make way for it. -/
theorem mem_blocks (split : EdgeSplit graph source target middle after) {block : Block} :
    block ∈ after.blocks ↔ block = middle ∨
      ∃ original ∈ graph.blocks, detour source target middle.name original = block := by
  obtain ⟨front, back, _, blocks, blocks_eq⟩ := split.exists_blocks
  rw [blocks_eq, blocks]
  simp only [List.mem_append, List.mem_cons, List.mem_map]
  constructor
  · rintro (⟨original, inFront, rfl⟩ | rfl | ⟨original, inBack, rfl⟩)
    · exact .inr ⟨original, .inl inFront, rfl⟩
    · exact .inl rfl
    · exact .inr ⟨original, .inr inBack, rfl⟩
  · rintro (rfl | ⟨original, inFront | inBack, rfl⟩)
    · exact .inr (.inl rfl)
    · exact .inl ⟨original, inFront, rfl⟩
    · exact .inr (.inr ⟨original, inBack, rfl⟩)

/-- One name is new. -/
theorem names_perm (split : EdgeSplit graph source target middle after) :
    after.names.Perm (middle.name :: graph.names) := by
  obtain ⟨front, back, _, blocks, blocks_eq⟩ := split.exists_blocks
  have same : ∀ list : List Block, (list.map (detour source target middle.name)).map Block.name =
      list.map Block.name := fun list => by
    rw [List.map_map]
    rfl
  rw [names, names, blocks_eq, blocks, List.map_append, List.map_cons, same, same, List.map_append]
  exact List.perm_middle

/-- The names are the new one and the old ones. -/
theorem mem_names (split : EdgeSplit graph source target middle after) {name : String} :
    name ∈ after.names ↔ name = middle.name ∨ name ∈ graph.names := by
  rw [split.names_perm.mem_iff, List.mem_cons]

/-- There is one block more. -/
theorem length_blocks (split : EdgeSplit graph source target middle after) :
    after.blocks.length = graph.blocks.length + 1 := by
  have lengths := split.names_perm.length_eq
  rwa [List.length_cons, names, names, List.length_map, List.length_map] at lengths

/-- Blocks keep names of their own. -/
theorem nodup_names (split : EdgeSplit graph source target middle after)
    (nodup : graph.names.Nodup) : after.names.Nodup :=
  split.names_perm.nodup_iff.2 (List.nodup_cons.2 ⟨split.fresh, nodup⟩)

/-- The entry stays the first block. -/
theorem head?_eq (split : EdgeSplit graph source target middle after) :
    after.blocks.head? = graph.blocks.head?.map (detour source target middle.name) := by
  obtain ⟨front, back, nonempty, blocks, blocks_eq⟩ := split.exists_blocks
  obtain ⟨first, rest, rfl⟩ := List.exists_cons_of_ne_nil nonempty
  rw [blocks_eq, blocks]
  rfl

/-- The entry keeps its name. -/
theorem entryName_eq (split : EdgeSplit graph source target middle after) :
    after.entryName = graph.entryName := by
  obtain ⟨front, back, nonempty, blocks, blocks_eq⟩ := split.exists_blocks
  obtain ⟨first, rest, rfl⟩ := List.exists_cons_of_ne_nil nonempty
  rw [entryName, entryName, blocks_eq, blocks]
  rfl

/-- The new block is well-formed, leads to the target and has no merges. -/
theorem middle_spec (split : EdgeSplit graph source target middle after) :
    middle.WellFormed ∧ middle.successors = [target] ∧ middle.phis = [] := by
  obtain ⟨jump, isJump, action⟩ := split.jumps
  obtain ⟨wellFormed, leadsOn⟩ := Block.wellFormed_of_jump isJump action
  refine ⟨wellFormed, leadsOn, ?_⟩
  rw [Block.phis, isJump, List.takeWhile_cons_of_neg]
  rw [(Instr.jmp_spec action).2.2.2]
  exact Bool.false_ne_true

section Edges

variable (split : EdgeSplit graph source target middle after)

include split

/-- Old names are told apart by what they are replaced by. -/
theorem eq_of_replaced_eq (replaced : Prop) [Decidable replaced] {old left right : String}
    (inLeft : left ∈ graph.names) (inRight : right ∈ graph.names)
    (same : (if replaced then replaceName old middle.name else id) left =
      (if replaced then replaceName old middle.name else id) right) : left = right := by
  have apart : ∀ {name}, name ∈ graph.names → name ≠ middle.name := by
    rintro name member rfl
    exact split.fresh member
  split at same
  · unfold replaceName at same
    split at same <;> split at same
    · rename_i isLeft isRight
      exact isLeft.trans isRight.symm
    · exact absurd same.symm (apart inRight)
    · exact absurd same (apart inLeft)
    · exact same
  · exact same

variable (wellFormed : graph.WellFormed)

include wellFormed

/-- Where the blocks lead that made way. -/
theorem mem_successors_detour {block : Block} (member : block ∈ graph.blocks) {label : String} :
    label ∈ (detour source target middle.name block).successors ↔
      (block.name = source ∧ label = middle.name) ∨
        (label ∈ block.successors ∧ ¬(block.name = source ∧ label = target)) := by
  rw [detour, (wellFormed.blocks block member).mem_successors_relabel]
  by_cases isSource : block.name = source
  · have leads : target ∈ block.successors := by
      obtain ⟨other, found, leads⟩ := FlowGraph.leads_iff.1 split.leads
      obtain ⟨inside, isOther⟩ := (find?_eq_some_iff wellFormed.nodup_names).1 found
      rwa [List.inj_on_of_nodup_map wellFormed.nodup_names member inside
        (isSource.trans isOther.symm)]
    rw [if_pos isSource]
    constructor
    · rintro ⟨old, isOld, rfl⟩
      unfold replaceName
      split
      · exact .inl ⟨isSource, rfl⟩
      · rename_i apart
        exact .inr ⟨isOld, fun same => apart same.2⟩
    · rintro (⟨_, rfl⟩ | ⟨isOld, apart⟩)
      · exact ⟨target, leads, if_pos rfl⟩
      · exact ⟨label, isOld, if_neg fun same => apart ⟨isSource, same⟩⟩
  · simp [isSource]

/-- Edges after the split: those of the new block and the old ones, but for the one split. -/
theorem leads_iff {name label : String} :
    after.Leads name label ↔ (name = source ∧ label = middle.name) ∨
      (name = middle.name ∧ label = target) ∨
        (graph.Leads name label ∧ ¬(name = source ∧ label = target)) := by
  have nodup := split.nodup_names wellFormed.nodup_names
  rw [FlowGraph.leads_iff]
  simp only [find?_eq_some_iff nodup, split.mem_blocks]
  constructor
  · rintro ⟨block, ⟨rfl | ⟨original, inside, rfl⟩, rfl⟩, leads⟩
    · rw [split.middle_spec.2.1, List.mem_singleton] at leads
      exact .inr (.inl ⟨rfl, leads⟩)
    · rcases (split.mem_successors_detour wellFormed inside).1 leads with isNew | ⟨leads, apart⟩
      · exact .inl isNew
      · exact .inr (.inr ⟨leads_of_mem wellFormed.nodup_names inside leads, apart⟩)
  · rintro (⟨rfl, rfl⟩ | ⟨rfl, rfl⟩ | ⟨leads, apart⟩)
    · obtain ⟨original, found, _⟩ := FlowGraph.leads_iff.1 split.leads
      obtain ⟨inside, rfl⟩ := (find?_eq_some_iff wellFormed.nodup_names).1 found
      exact ⟨_, ⟨.inr ⟨original, inside, rfl⟩, rfl⟩,
        (split.mem_successors_detour wellFormed inside).2 (.inl ⟨rfl, rfl⟩)⟩
    · exact ⟨middle, ⟨.inl rfl, rfl⟩, by rw [split.middle_spec.2.1]; exact List.mem_singleton_self _⟩
    · obtain ⟨original, found, isSuccessor⟩ := FlowGraph.leads_iff.1 leads
      obtain ⟨inside, rfl⟩ := (find?_eq_some_iff wellFormed.nodup_names).1 found
      exact ⟨_, ⟨.inr ⟨original, inside, rfl⟩, rfl⟩,
        (split.mem_successors_detour wellFormed inside).2 (.inr ⟨isSuccessor, apart⟩)⟩

/-- The flow graph stays well-formed. -/
theorem wellFormed_after : after.WellFormed := by
  have nodup := split.nodup_names wellFormed.nodup_names
  refine ⟨?_, nodup, fun block member => ?_, fun block member label leads => ?_,
    fun block member leads => ?_, ?_⟩
  · intro empty
    have middleMember := split.mem_blocks.2 (.inl rfl)
    rw [empty] at middleMember
    cases middleMember
  · rcases split.mem_blocks.1 member with rfl | ⟨original, inside, rfl⟩
    · exact split.middle_spec.1
    · exact (wellFormed.blocks original inside).relabel _ _
  · rw [split.mem_names]
    rcases (split.leads_iff wellFormed).1 (leads_of_mem nodup member leads) with
      ⟨_, rfl⟩ | ⟨_, rfl⟩ | ⟨leads, _⟩
    · exact .inl rfl
    · exact .inr (wellFormed.mem_names_of_leads split.leads)
    · exact .inr (wellFormed.mem_names_of_leads leads)
  · rw [split.entryName_eq] at leads
    obtain ⟨first, _, inside, isEntry⟩ := wellFormed.exists_entry
    rcases (split.leads_iff wellFormed).1 (leads_of_mem nodup member leads) with
      ⟨_, same⟩ | ⟨_, rfl⟩ | ⟨leads, _⟩
    · exact split.fresh (same ▸ isEntry ▸ List.mem_map_of_mem inside)
    · exact wellFormed.not_leads_entry _ split.leads
    · exact wellFormed.not_leads_entry _ leads
  · rw [paramNames, split.params_eq]
    exact wellFormed.nodup_params

/-- A block that made way has as many successors as before. -/
theorem length_successors {block : Block} (member : block ∈ graph.blocks) :
    (detour source target middle.name block).successors.length = block.successors.length := by
  have perm : (detour source target middle.name block).successors.Perm (block.successors.map
      (if block.name = source then replaceName target middle.name else id)) := by
    refine (List.perm_ext_iff_of_nodup (Block.nodup_successors _)
      ((Block.nodup_successors block).map_on fun left inLeft right inRight =>
        split.eq_of_replaced_eq _ (wellFormed.target_mem block member left inLeft)
          (wellFormed.target_mem block member right inRight))).2 fun label => ?_
    rw [detour, (wellFormed.blocks block member).mem_successors_relabel, List.mem_map]
  rw [perm.length_eq, List.length_map]

end Edges

/-! ## Merges -/

end EdgeSplit

/-- Merges name each predecessor of their block once, and nothing else. -/
def PhisFit (graph : FlowGraph) : Prop :=
  ∀ block ∈ graph.blocks, ∀ phi ∈ block.phis, phi.labels.Perm (graph.predecessorsOf block.name)

/-- What merges name are the blocks that lead to theirs. -/
theorem PhisFit.mem_labels {graph : FlowGraph} (fit : graph.PhisFit)
    (nodup : graph.names.Nodup) {block : Block} (member : block ∈ graph.blocks) {phi : Instr}
    (isPhi : phi ∈ block.phis) {label : String} :
    label ∈ phi.labels ↔ graph.Leads label block.name := by
  rw [(fit block member phi isPhi).mem_iff, mem_predecessorsOf_iff_leads nodup]

/-- What a block leads from is the name of a block. -/
theorem mem_names_of_leads_left {graph : FlowGraph} {source target : String}
    (leads : graph.Leads source target) : source ∈ graph.names := by
  obtain ⟨block, found, _⟩ := leads_iff.1 leads
  exact exists_find?_iff.1 ⟨block, found⟩

namespace EdgeSplit

variable {graph after : FlowGraph} {source target : String} {middle : Block}

/-- Merges still name the predecessors of their blocks. -/
theorem phisFit (split : EdgeSplit graph source target middle after)
    (wellFormed : graph.WellFormed) (fit : graph.PhisFit) : after.PhisFit := by
  have nodup := split.nodup_names wellFormed.nodup_names
  intro block member phi isPhi
  rcases split.mem_blocks.1 member with rfl | ⟨original, inside, rfl⟩
  · rw [split.middle_spec.2.2] at isPhi
    cases isPhi
  · rw [detour, Block.phis_relabel] at isPhi
    obtain ⟨phi, isOld, rfl⟩ := List.mem_map.1 isPhi
    rw [Instr.relabel, if_pos (Block.isPhi_of_mem_phis isOld), Instr.labels_mapLabels]
    have labels : ∀ label, label ∈ phi.labels ↔ graph.Leads label original.name := fun label =>
      fit.mem_labels wellFormed.nodup_names inside isOld
    have nodupLabels : phi.labels.Nodup := (fit original inside phi isOld).nodup_iff.2
      (nodup_predecessorsOf wellFormed.nodup_names _)
    -- Labels and predecessors are without repetition, so it is enough that they have the same
    -- members.
    refine (List.perm_ext_iff_of_nodup ?_ (nodup_predecessorsOf nodup _)).2 fun label => ?_
    · exact nodupLabels.map_on fun left inLeft right inRight => split.eq_of_replaced_eq _
        (mem_names_of_leads_left ((labels left).1 inLeft))
        (mem_names_of_leads_left ((labels right).1 inRight))
    · rw [mem_predecessorsOf_iff_leads nodup, split.leads_iff wellFormed, List.mem_map]
      have apart : original.name ≠ middle.name := fun same =>
        split.fresh (same ▸ List.mem_map_of_mem inside)
      simp only [labels, name_detour, apart, and_false, false_or]
      by_cases isTarget : original.name = target
      · rw [if_pos isTarget]
        constructor
        · rintro ⟨old, leads, rfl⟩
          unfold replaceName
          split
          · exact .inl ⟨rfl, isTarget⟩
          · rename_i notSource
            exact .inr ⟨leads, fun same => notSource same.1⟩
        · rintro (⟨rfl, _⟩ | ⟨leads, notSplit⟩)
          · exact ⟨source, isTarget ▸ split.leads, if_pos rfl⟩
          · exact ⟨label, leads, if_neg fun same => notSplit ⟨same, isTarget⟩⟩
      · simp [isTarget]

/-! ## Runs -/

/-- A block that makes way runs as before, but it is entered from the new block where it was entered
over the edge, and goes on there where it went on over the edge. -/
theorem exec_detour (split : EdgeSplit graph source target middle after)
    (wellFormed : graph.WellFormed) (fit : graph.PhisFit) (machine : Machine) (calls : Calls)
    {block : Block} (member : block ∈ graph.blocks) {origin : Option String}
    (known : ∀ name, origin = some name → name ∈ graph.names) (state : State) :
    (detour source target middle.name block).exec machine calls
      (origin.map (if block.name = target then replaceName source middle.name else id)) state =
      (block.exec machine calls origin state).map fun step => (step.1,
        step.2.relabel (if block.name = source then replaceName target middle.name else id)) := by
  refine (wellFormed.blocks block member).exec_relabel _ (fun name isName phi isPhi label isLabel =>
    split.eq_of_replaced_eq _ ?_ (known name isName)) machine calls state
  exact mem_names_of_leads_left ((fit.mem_labels wellFormed.nodup_names member isPhi).1 isLabel)

/-- The new block goes on to the target. -/
theorem exec_middle (split : EdgeSplit graph source target middle after) (machine : Machine)
    (calls : Calls) (origin : Option String) (state : State) :
    middle.exec machine calls origin state = some (state, .jump target) := by
  obtain ⟨jump, isJump, action⟩ := split.jumps
  obtain ⟨_, _, _, notPhi⟩ := Instr.jmp_spec action
  rw [Block.exec_of_unmerged (fun instr inside => by
    rw [isJump, List.mem_singleton] at inside
    rwa [inside]), isJump, Instr.execAll_cons, Instr.exec_of_jmp action]
  rfl

/-- Runs take one more step where they passed the edge. A block is entered from the new block where it
was entered over that edge. -/
theorem refines (split : EdgeSplit graph source target middle after)
    (wellFormed : graph.WellFormed) (fit : graph.PhisFit) (machine : Machine) :
    graph.Refines machine after := by
  have nodup := split.nodup_names wellFormed.nodup_names
  refine refines_of_following (fun block image from' origin env mirror =>
    block ∈ graph.blocks ∧ image = detour source target middle.name block ∧ mirror = env ∧
      (∀ name, from' = some name → name ∈ graph.names) ∧
      origin = from'.map (if block.name = target then replaceName source middle.name else id))
    fun calls => ⟨?_, ?_, ?_⟩
  · intro args env first bound isFirst
    refine ⟨env, _, by rw [split.params_eq, bound], by rw [split.head?_eq, isFirst]; rfl,
      List.mem_of_mem_head? isFirst, rfl, rfl, nofun, rfl⟩
  · rintro block image from' origin env mirror lines next value ⟨member, rfl, rfl, known, rfl⟩ ran
    refine ⟨next.env, ?_⟩
    rw [split.exec_detour wellFormed fit machine calls member known, ran]
    rfl
  · rintro block image from' origin env mirror lines next label onward entered
      ⟨member, rfl, rfl, known, rfl⟩ ran found _
    obtain ⟨onwardMember, rfl⟩ := (find?_eq_some_iff wellFormed.nodup_names).1 found
    have found' : after.find? onward.name = some (detour source target middle.name onward) :=
      (find?_eq_some_iff nodup).2 ⟨split.mem_blocks.2 (.inr ⟨onward, onwardMember, rfl⟩), rfl⟩
    have known' : ∀ name, some block.name = some name → name ∈ graph.names := by
      rintro name ⟨⟩
      exact List.mem_map_of_mem member
    have ranImage := split.exec_detour wellFormed fit machine calls member known ⟨mirror, lines⟩
    rw [ran, Option.map_some] at ranImage
    rcases passes_or_stays source target middle.name block.name onward.name with
      ⟨isSource, isTarget⟩ | ⟨sameTarget, sameSource⟩
    · -- The run passes the new block.
      have foundMiddle : after.find? middle.name = some middle :=
        (find?_eq_some_iff nodup).2 ⟨split.mem_blocks.2 (.inl rfl), rfl⟩
      have ranMiddle := isTarget ▸ split.exec_middle machine calls (some block.name) next
      rw [if_pos isSource, Control.relabel, replaceName, if_pos isTarget] at ranImage
      refine ⟨2, _, some middle.name, next.env, fun fuel => ?_, onwardMember, rfl, rfl, known', ?_⟩
      · rw [runFrom_of_jump ranImage foundMiddle, name_detour, runFrom_of_jump ranMiddle found']
      · rw [if_pos isTarget, Option.map_some, replaceName, if_pos isSource]
    · rw [Control.relabel, sameTarget] at ranImage
      refine ⟨1, _, some block.name, next.env, fun fuel => ?_, onwardMember, rfl, rfl, known', ?_⟩
      · rw [runFrom_of_jump ranImage found', name_detour]
      · rw [Option.map_some, sameSource]

end EdgeSplit

end FlowGraph

end Midend
