import Midend.Pass
import Midend.Proofs.DeadCode
import Midend.Proofs.Values.Local
import Midend.Proofs.Values.Visits
import Midend.Registers.Coalesce

/-! # Blocks made anew

Passes and coalescing change the instructions of blocks only: every block keeps its name, its
successors and the labels of its merges (`FlowGraph.Remade`), whether the code is in single
assignment or not (`Pass.remade_run`, `Coalescing.remade_run`). -/

namespace Midend

/-! ## Blocks made anew -/

namespace Block

/-- A block in the place of another one: it has the same name, leads to the same blocks, and its
merges take values from the same blocks. -/
structure Remade (block image : Block) : Prop where
  /-- The name stays. -/
  name_eq : image.name = block.name
  /-- The successors stay. -/
  successors_eq : image.successors = block.successors
  /-- The block is well-formed. -/
  wellFormed : image.WellFormed
  /-- Merges name what merges named. -/
  labels : ∀ phi ∈ image.phis, ∃ old ∈ block.phis, phi.labels = old.labels

namespace Remade

variable {block middle image : Block}

/-- A well-formed block stands in its own place. -/
theorem refl (wellFormed : block.WellFormed) : Remade block block :=
  ⟨rfl, rfl, wellFormed, fun phi isPhi => ⟨phi, isPhi, rfl⟩⟩

/-- Two changes in a row. -/
theorem trans (first : Remade block middle) (second : Remade middle image) : Remade block image := by
  refine ⟨second.name_eq.trans first.name_eq, second.successors_eq.trans first.successors_eq,
    second.wellFormed, fun phi isPhi => ?_⟩
  obtain ⟨between, isBetween, same⟩ := second.labels phi isPhi
  obtain ⟨old, isOld, sameToo⟩ := first.labels between isBetween
  exact ⟨old, isOld, same.trans sameToo⟩

/-- Dropping instructions that neither merge nor end the block. -/
theorem filter (wellFormed : block.WellFormed) {keep : Instr → Bool}
    (merges : ∀ phi, phi.isPhi = true → keep phi = true)
    (last : ∀ instr, instr.isTerminator = true → keep instr = true) :
    Remade block { block with instrs := block.instrs.filter keep } := by
  obtain ⟨middle, terminator, body_eq, instrs_eq, plain, ends⟩ := wellFormed.exists_body
  have phis_kept : block.phis.filter keep = block.phis :=
    List.filter_eq_self.2 fun phi isPhi => merges phi (isPhi_of_mem_phis isPhi)
  -- Merges and the last instruction are kept, so only what is between them gets shorter.
  have filtered : block.instrs.filter keep = block.phis ++ (middle.filter keep ++ [terminator]) := by
    rw [instrs_eq, List.filter_append, List.filter_append, phis_kept,
      List.filter_cons_of_pos (last terminator ends), List.filter_nil, List.append_assoc]
  have split : ({ block with instrs := block.instrs.filter keep } : Block).instrs =
      (block.phis ++ middle.filter keep) ++ [terminator] := by
    rw [List.append_assoc]
    exact filtered
  have inBody : ∀ instr ∈ middle.filter keep ++ [terminator], instr ∈ block.body := by
    intro instr member
    rw [body_eq]
    exact (List.filter_sublist.append_right _).subset member
  obtain ⟨phis_eq, rest_eq⟩ := @phis_of_split { block with instrs := block.instrs.filter keep } _ _
    filtered (fun _ => isPhi_of_mem_phis) fun instr member =>
      wellFormed.phis_first instr (inBody instr member)
  have old : ∀ instr ∈ block.instrs.filter keep, instr ∈ block.instrs := fun instr member =>
    (List.mem_filter.1 member).1
  have lastChecked := wellFormed.checked terminator (by rw [instrs_eq]; simp)
  refine ⟨rfl, ?_, ⟨⟨_, _, split, fun instr member => ?_, ends⟩, fun instr member =>
    wellFormed.checked instr (old instr member), fun instr member =>
    wellFormed.unlabelled instr (old instr member), fun instr member => ?_⟩, fun phi isPhi =>
    ⟨phi, phis_eq ▸ isPhi, rfl⟩⟩
  · rw [successors_of_terminator (terminator?_of_split split ends) lastChecked ends,
      successors_of_terminator (terminator?_of_split instrs_eq ends) lastChecked ends]
  · rcases List.mem_append.1 member with isPhi | inMiddle
    · exact isTerminator_of_isPhi (isPhi_of_mem_phis isPhi)
    · exact plain instr (List.mem_filter.1 inMiddle).1
  · rw [rest_eq] at member
    exact wellFormed.phis_first instr (inBody instr member)

end Remade

end Block

namespace FlowGraph

/-- A flow graph whose blocks are made anew. -/
structure Remade (graph after : FlowGraph) : Prop where
  /-- The function has the same name. -/
  name_eq : after.name = graph.name
  /-- The parameters are the same. -/
  params_eq : after.params = graph.params
  /-- Blocks are made anew. -/
  blocks : List.Forall₂ Block.Remade graph.blocks after.blocks

variable {graph middle after : FlowGraph}

namespace Remade

/-- A well-formed flow graph stands in its own place. -/
theorem refl (wellFormed : graph.WellFormed) : graph.Remade graph :=
  ⟨rfl, rfl, List.forall₂_same.2 fun block member => .refl (wellFormed.blocks block member)⟩

/-- Two changes in a row. -/
theorem trans (first : graph.Remade middle) (second : middle.Remade after) : graph.Remade after := by
  refine ⟨second.name_eq.trans first.name_eq, second.params_eq.trans first.params_eq, ?_⟩
  exact forall₂_trans Block.Remade.trans first.blocks second.blocks

/-- Names and edges stay. -/
theorem recoded (remade : graph.Remade after) : graph.Recoded after :=
  ⟨remade.name_eq, remade.params_eq, remade.blocks.imp fun _ _ block =>
    ⟨block.name_eq, block.successors_eq, block.wellFormed⟩⟩

/-- Every block is made anew. -/
theorem of_map {change : Block → Block}
    (each : ∀ block ∈ graph.blocks, Block.Remade block (change block)) :
    graph.Remade { graph with blocks := graph.blocks.map change } :=
  ⟨rfl, rfl, List.forall₂_map_right_iff.2 (List.forall₂_same.2 each)⟩

/-- The block of a name is made anew. -/
theorem of_modifyBlock (wellFormed : graph.WellFormed) {name : String} {change : Block → Block}
    (here : ∀ block ∈ graph.blocks, block.name = name → Block.Remade block (change block)) :
    graph.Remade (graph.modifyBlock name change) := by
  refine of_map fun block member => ?_
  split
  · rename_i isName
    exact here block member isName
  · exact .refl (wellFormed.blocks block member)

end Remade

end FlowGraph

/-! ## Passes -/

/-- Dropping dead code makes blocks anew. -/
theorem FlowGraph.Thins.remade {out : String → Prop} {change : Block → Block}
    {graph after : FlowGraph} (thins : graph.Thins out change after)
    (wellFormed : graph.WellFormed) : graph.Remade after := by
  refine ⟨thins.name_eq, thins.params_eq, ?_⟩
  rw [thins.blocks_eq, List.forall₂_map_right_iff, List.forall₂_same]
  intro block member
  have thinned := thins.thinned block member
  have formed := wellFormed.blocks block member
  obtain ⟨successors_eq, formedToo⟩ := thinned.wellFormed formed
  refine ⟨thins.block_name block, successors_eq, formedToo, fun phi isPhi => ?_⟩
  obtain ⟨_, _, _, _, _, _, _, phisThinned, _⟩ := thinned.exists_parts formed
  exact ⟨phi, phisThinned.sublist.subset isPhi, rfl⟩

/-- Rounds of dead code elimination make blocks anew. -/
theorem DeadCode.remade_rounds (budget : Nat) {graph : FlowGraph} (wellFormed : graph.WellFormed) :
    graph.Remade (rounds budget graph).1 := by
  induction budget generalizing graph with
  | zero => exact .refl wellFormed
  | succ budget budgetIH =>
    have first := (thins_withoutUnused graph).remade wellFormed
    have firstFormed := first.recoded.wellFormed wellFormed
    have second := (thins_withoutOverwritten (withoutUnused graph)).remade firstFormed
    rw [rounds]
    dsimp only
    split
    · exact .refl wellFormed
    · exact first.trans (second.trans (budgetIH (second.recoded.wellFormed firstFormed)))

/-- Local numbering makes blocks anew. -/
theorem LocalNumbering.remade_run {graph : FlowGraph} (wellFormed : graph.WellFormed) :
    graph.Remade (run graph).1 := by
  have images : List.Forall₂ (Image graph.name (fun _ => False)) graph.blocks
      (run graph).1.blocks := forall₂_image nofun
  refine ⟨rfl, rfl, forall₂_imp_of_mem images fun block member image isImage => ?_⟩
  obtain ⟨_, _, name_eq, successors_eq, formed, phis_eq, _⟩ :=
    isImage.exists_body (wellFormed.blocks block member)
  exact ⟨name_eq, successors_eq, formed, fun phi isPhi => ⟨phi, phis_eq ▸ isPhi, rfl⟩⟩

namespace GlobalNumbering

/-- A merge is kept, or becomes an instruction that neither merges nor ends a block. -/
theorem numberPhi_shape (place : Place) (table : ValueTable) {phi : Instr}
    (isPhi : phi.isPhi = true) :
    (numberPhi place table phi).1 = phi ∨ (numberPhi place table phi).1.isPhi = false ∧
      (numberPhi place table phi).1.isTerminator = false ∧
      (numberPhi place table phi).1.isLabel = false ∧ (numberPhi place table phi).1.Checked := by
  obtain ⟨dest, ty, operands, isAction⟩ := Instr.exists_of_isPhi isPhi
  rcases numberPhi_cases place table isAction with ⟨same, _⟩ | ⟨_, _, same, _⟩ |
    ⟨_, _, _, _, ⟨other, ⟨literal, _, isConst⟩ | ⟨source, _, isCopy⟩⟩, _⟩
  · exact .inl same
  · exact .inl same
  · rw [isConst]
    exact .inr ⟨rfl, rfl, rfl, rfl⟩
  · rw [isCopy]
    exact .inr ⟨rfl, rfl, rfl, rfl⟩

/-- What is numbered is the image of an instruction, with some table. -/
theorem exists_of_mem_numberAll {step : ValueTable → Instr → Instr × ValueTable × Log}
    {instrs : List Instr} {table : ValueTable} {image : Instr}
    (member : image ∈ (numberAll step instrs table).1) :
    ∃ instr ∈ instrs, ∃ table, image = (step table instr).1 := by
  induction instrs generalizing table with
  | nil => cases member
  | cons instr rest restIH =>
    rw [(numberAll_cons step instr rest table).1] at member
    rcases List.mem_cons.1 member with rfl | inRest
    · exact ⟨instr, List.mem_cons_self .., table, rfl⟩
    · obtain ⟨other, isOther, isImage⟩ := restIH inRest
      exact ⟨other, List.mem_cons_of_mem _ isOther, isImage⟩

/-- A numbered block is made anew. -/
theorem remade_numberBlock (place : Place) (table : ValueTable) {block : Block}
    (wellFormed : block.WellFormed) : Block.Remade block (numberBlock place table block).1 := by
  -- A merge is kept as it was or makes way for a constant or a copy.
  have phis : ∀ image ∈ (numberAll (numberPhi place) block.phis table).1,
      (image ∈ block.phis ∧ image.isPhi = true) ∨ image.isPhi = false ∧
        image.isTerminator = false ∧ image.isLabel = false ∧ image.Checked := by
    intro image member
    obtain ⟨phi, isPhi, other, rfl⟩ := exists_of_mem_numberAll member
    have isMerge := Block.isPhi_of_mem_phis isPhi
    rcases numberPhi_shape place other isMerge with same | replaced
    · rw [same]
      exact .inl ⟨isPhi, isMerge⟩
    · exact .inr replaced
  have kept : ∀ image ∈ (numberAll (numberPhi place) block.phis table).1.filter Instr.isPhi,
      image ∈ block.phis := by
    intro image member
    obtain ⟨inside, isPhi⟩ := List.mem_filter.1 member
    rcases phis image inside with ⟨old, _⟩ | ⟨notPhi, _⟩
    · exact old
    · rw [notPhi] at isPhi
      cases isPhi
  obtain ⟨successors_eq, formed, phis_eq, _⟩ := wellFormed.of_sameShape
    ((numberAll (numberPhi place) block.phis table).1.filter Instr.isPhi)
    ((numberAll (numberPhi place) block.phis table).1.filter fun instr => !instr.isPhi)
    (show (numberBlock place table block).1.instrs = _ ++ (_ ++
      (numberAll (Numbering.numberInstr place) block.body
        (numberAll (numberPhi place) block.phis table).2.1).1) by
      rw [numberBlock]
      dsimp only
      rw [List.partition_eq_filter_filter, List.append_assoc]
      rfl)
    (fun phi member => ⟨(List.mem_filter.1 member).2,
      wellFormed.checked phi (Block.mem_of_mem_phis (kept phi member))⟩)
    (fun instr member => by
      obtain ⟨inside, notPhi⟩ := List.mem_filter.1 member
      rcases phis instr inside with ⟨_, isPhi⟩ | plain
      · rw [isPhi] at notPhi
        cases notPhi
      · exact plain)
    (forall₂_sameShape place wellFormed.plain_body _)
  refine ⟨rfl, successors_eq, formed, fun phi isPhi => ?_⟩
  rw [phis_eq] at isPhi
  exact ⟨phi, kept phi isPhi, rfl⟩

/-- A well-formed block has its merges in front, with a value for every label. -/
theorem tidy_of_wellFormed {block : Block} (wellFormed : block.WellFormed) : Tidy block := by
  refine ⟨wellFormed.phis_first, fun phi isPhi => ?_⟩
  obtain ⟨dest, ty, operands, isAction⟩ := Instr.exists_of_isPhi (Block.isPhi_of_mem_phis isPhi)
  have checked := wellFormed.checked phi (Block.mem_of_mem_phis isPhi)
  have fit := ((Instr.checked_compute_iff isAction).1 checked).2.2
  rw [Instr.args, Instr.labels, isAction]
  exact (fit.labels_args rfl).symm

/-- A block that receives values is made anew. -/
theorem remade_receive (source : String) (table : ValueTable) {block : Block}
    (wellFormed : block.WellFormed) : Block.Remade block (receive source table block) := by
  have tidy := tidy_of_wellFormed wellFormed
  obtain ⟨successors_eq, formed, phis_eq, _⟩ := wellFormed.of_sameShape
    (block.phis.map (mapIncoming fun label arg => if label = source then canonical table arg else arg))
    [] (show (receive source table block).instrs = _ ++ ([] ++ block.body) from rfl)
    (fun phi member => by
      obtain ⟨old, isOld, rfl⟩ := List.mem_map.1 member
      have isPhi := Block.isPhi_of_mem_phis isOld
      exact ⟨by rwa [isPhi_mapIncoming], checked_mapIncoming
        (wellFormed.checked old (Block.mem_of_mem_phis isOld)) isPhi (tidy.2 old isOld)⟩)
    nofun (List.forall₂_same.2 fun instr _ => .refl instr)
  refine ⟨rfl, successors_eq, formed, fun phi isPhi => ?_⟩
  rw [phis_eq] at isPhi
  obtain ⟨old, isOld, rfl⟩ := List.mem_map.1 isPhi
  exact ⟨old, isOld, labels_mapIncoming⟩

/-- A visit of a block makes blocks anew. -/
theorem remade_visitBlock (name : String) (table : ValueTable) {graph : FlowGraph}
    (wellFormed : graph.WellFormed) : graph.Remade (visitBlock name table graph).1 := by
  unfold visitBlock
  split
  · exact .refl wellFormed
  · rename_i block found
    dsimp only
    generalize isPlace : (⟨graph.name, name, passName⟩ : Place) = place
    have numbered : graph.Remade
        (graph.modifyBlock name fun _ => (numberBlock place table block).1) := by
      refine .of_modifyBlock wellFormed fun other member isName => ?_
      obtain rfl := Option.some.inj (found.symm.trans
        ((FlowGraph.find?_eq_some_iff wellFormed.nodup_names).2 ⟨member, isName⟩))
      exact remade_numberBlock place table (wellFormed.blocks block member)
    have formed := numbered.recoded.wellFormed wellFormed
    rw [propagate_eq _ _ (Block.nodup_successors _) formed.nodup_names fun other member =>
      tidy_of_wellFormed (formed.blocks other member)]
    refine numbered.trans (.of_map fun other member => ?_)
    split
    · exact remade_receive _ _ (formed.blocks other member)
    · exact .refl (formed.blocks other member)

/-- Global numbering makes blocks anew, in single assignment or not. -/
theorem remade_run {graph after : FlowGraph} {log : Log} (wellFormed : graph.WellFormed)
    (ran : run graph = .ok (after, log)) : graph.Remade after := by
  obtain ⟨dominance, _, ran⟩ := Attempt.bind_eq_ok.1 ran
  obtain ⟨rfl, rfl⟩ := Prod.mk.inj (Except.ok.inj ran)
  have walked := walk_visit dominance.tree (startTable graph) graph []
  exact (@Dominance.Tree.walk_cases _ _ visit (fun _ => True) (fun _ state => graph.Remade state.1)
    (fun _ => False) dominance.tree (startTable graph) (graph, []) 0
    (fun name _ table state _ _ remade => by
      refine ⟨fun table' next' visited => ?_, fun error failed => ?_⟩
      · obtain ⟨rfl, rfl⟩ := Prod.mk.inj (Except.ok.inj visited)
        exact ⟨trivial, remade.trans
          (remade_visitBlock name table (remade.recoded.wellFormed wellFormed))⟩
      · cases failed)
    trivial (.refl wellFormed)).1 _ walked

end GlobalNumbering

/-- A pass makes blocks anew, also one that fails. -/
theorem Pass.remade_run (pass : Pass) {graph : FlowGraph} (wellFormed : graph.WellFormed) :
    graph.Remade (pass.run graph).graph := by
  cases pass with
  | localNumbering => exact LocalNumbering.remade_run wellFormed
  | globalNumbering =>
    rw [Pass.run]
    cases ran : GlobalNumbering.run graph with
    | error error => exact .refl wellFormed
    | ok result => exact GlobalNumbering.remade_run wellFormed ran
  | deadCode limit => exact DeadCode.remade_rounds _ wellFormed

/-! ## Coalescing -/

namespace Coalescing

/-- Another name for a variable keeps what kind of instruction it is. -/
theorem sameShape_rename (change : String → String) (instr : Instr) :
    Instr.SameShape instr ((instr.mapArgs change).mapDest change) :=
  (Instr.SameShape.mapArgs instr change).trans (.mapDest _ change)

/-- Renaming a variable makes blocks anew. -/
theorem remade_rename {graph : FlowGraph} (wellFormed : graph.WellFormed) (old new : String) :
    graph.Remade (rename graph old new) := by
  refine .of_map fun block member => ?_
  have formed := wellFormed.blocks block member
  generalize FlowGraph.replaceName old new = change
  obtain ⟨successors_eq, formedToo, phis_eq, _⟩ := formed.of_sameShape
    (block.phis.map fun phi => (phi.mapArgs change).mapDest change) []
    (show (⟨block.name, block.instrs.map fun instr => (instr.mapArgs change).mapDest change⟩ :
        Block).instrs = _ ++ ([] ++ block.body.map fun instr => (instr.mapArgs change).mapDest change)
      by rw [List.nil_append, ← List.map_append, Block.phis_append_body])
    (fun phi isPhi => by
      obtain ⟨original, isOriginal, rfl⟩ := List.mem_map.1 isPhi
      have shape := sameShape_rename change original
      exact ⟨shape.isPhi_eq.trans (Block.isPhi_of_mem_phis isOriginal),
        shape.checked (formed.checked original (Block.mem_of_mem_phis isOriginal))⟩)
    nofun (List.forall₂_map_right_iff.2 (List.forall₂_same.2 fun instr _ =>
      sameShape_rename change instr))
  refine ⟨rfl, successors_eq, formedToo, fun phi isPhi => ?_⟩
  rw [phis_eq] at isPhi
  obtain ⟨original, isOriginal, rfl⟩ := List.mem_map.1 isPhi
  exact ⟨original, isOriginal, by rw [Instr.labels_mapDest, Instr.labels_mapArgs]⟩

/-- Merging copies makes blocks anew. -/
theorem remade_mergeCopies (budget : Nat) {graph : FlowGraph} (wellFormed : graph.WellFormed)
    (interference : Interference) :
    graph.Remade (mergeCopies budget graph interference).1 := by
  induction budget generalizing graph interference with
  | zero => exact .refl wellFormed
  | succ budget budgetIH =>
    rw [mergeCopies]
    split
    · exact .refl wellFormed
    · rename_i old new _
      have first := remade_rename wellFormed old new
      exact first.trans (budgetIH (first.recoded.wellFormed wellFormed) _)

/-- What copies a variable to itself. -/
theorem isSelfCopy_iff {instr : Instr} : isSelfCopy instr = true ↔
    ∃ var ty operands, instr.action = .compute .id var ty operands ∧ operands.args = [var] := by
  constructor
  · intro isCopy
    unfold isSelfCopy copySides? at isCopy
    split at isCopy
    · rename_i dest source sides
      split at sides
      · rename_i var ty operands isAction
        split at sides
        · rename_i other isArgs
          obtain ⟨rfl, rfl⟩ := Prod.mk.inj (Option.some.inj sides)
          obtain rfl := of_decide_eq_true isCopy
          exact ⟨_, ty, operands, isAction, isArgs⟩
        · cases sides
      · cases sides
    · cases isCopy
  · rintro ⟨var, ty, operands, isAction, isArgs⟩
    simp [isSelfCopy, copySides?, isAction, isArgs]

/-- Dropping self copies makes blocks anew. -/
theorem remade_removeSelfCopies {graph : FlowGraph} (wellFormed : graph.WellFormed) :
    graph.Remade (removeSelfCopies graph) := by
  refine .of_map fun block member => .filter (wellFormed.blocks block member)
    (fun phi isPhi => ?_) fun instr ends => ?_
  · rw [Bool.not_eq_true', Bool.eq_false_iff, Ne, isSelfCopy_iff]
    rintro ⟨var, ty, operands, isAction, _⟩
    rw [Instr.isPhi, isAction] at isPhi
    cases isPhi
  · rw [Bool.not_eq_true', Bool.eq_false_iff, Ne, isSelfCopy_iff]
    rintro ⟨var, ty, operands, isAction, _⟩
    rw [Instr.isTerminator, Instr.op?, isAction] at ends
    cases ends

/-- Coalescing makes blocks anew. -/
theorem remade_run {graph : FlowGraph} (wellFormed : graph.WellFormed)
    (interference : Interference) : graph.Remade (run graph interference).1 := by
  have merged := remade_mergeCopies graph.instructionCount wellFormed interference
  exact merged.trans (remade_removeSelfCopies (merged.recoded.wellFormed wellFormed))

end Coalescing

end Midend
