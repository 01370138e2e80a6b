import Midend.Proofs.FlowGraph.Rebuild
import Midend.Proofs.FlowGraph.Signature
import Midend.Proofs.Typing.Discipline

/-! # Disciplines and flow graphs

A function that conforms to a discipline has a flow graph that does (`FlowGraph.tidy_build`).
Splitting edges and removing unreachable blocks keep the discipline. What is written out of a flow
graph may stand in code wherever it could before (`FlowGraph.Admitted.flatten`). -/

namespace Midend

variable {discipline : Discipline} {kinds : Kinds}

namespace Instr.Conforms

variable {key : Nat}

/-- Jumps conform. -/
theorem jmp (target : String) (low : key < keyLimit) :
    ((Instr.jmp target).withKey key).Conforms discipline kinds :=
  .of_action (Instr.jmp target).action (.effect Opcode.noConfusion ⟨nofun, nofun⟩) low

/-- Returns without a value conform. -/
theorem ret (low : key < keyLimit) :
    ((Instr.ret none).withKey key).Conforms discipline kinds :=
  .of_action (Instr.ret none).action (.effect Opcode.noConfusion ⟨nofun, nofun⟩) low

end Instr.Conforms

/-- A function of instructions that may stand in code. -/
structure Func.Conforms (discipline : Discipline) (kinds : Kinds) (function : Func) : Prop where
  /-- Parameters have kinds and allowed types. -/
  params : ∀ param ∈ function.params, discipline.types param.ty ∧
    kinds param.name = some (discipline.kind param.ty)
  /-- The instructions may stand in code. -/
  instrs : ∀ instr ∈ function.instrs, instr.Conforms discipline kinds

/-- A function of instructions each of which may stand in some code. -/
structure Func.Admitted (discipline : Discipline) (function : Func) : Prop where
  /-- Types of parameters are allowed. -/
  params : ∀ param ∈ function.params, discipline.types param.ty
  /-- The instructions may stand in some code. -/
  instrs : ∀ instr ∈ function.instrs, instr.Admitted discipline

namespace Block

/-- Changed leading merges and the rest of a block. -/
theorem forall_mapPhis {holds : Instr → Prop} {block : Block} {change : Instr → Instr}
    (held : ∀ instr ∈ block.instrs, holds instr)
    (changed : ∀ instr, holds instr → holds (change instr)) :
    ∀ instr ∈ (block.mapPhis change).instrs, holds instr := by
  intro instr member
  rcases List.mem_append.1 member with isPhi | inBody
  · obtain ⟨phi, inside, rfl⟩ := List.mem_map.1 isPhi
    exact changed phi (held phi (mem_of_mem_phis inside))
  · exact held instr (mem_of_mem_body inBody)

/-- A changed terminator and the rest of a block. -/
theorem forall_mapTerminator {holds : Instr → Prop} {block : Block} {change : Instr → Instr}
    (held : ∀ instr ∈ block.instrs, holds instr)
    (changed : ∀ instr, holds instr → holds (change instr)) :
    ∀ instr ∈ (block.mapTerminator change).instrs, holds instr := by
  unfold mapTerminator
  split
  · rename_i terminator found
    have inside := List.mem_of_getLast? (Option.filter_eq_some_iff.1 found).1
    intro instr member
    rcases List.mem_append.1 member with before | isLast
    · exact held instr (List.mem_of_mem_dropLast before)
    · rw [List.mem_singleton.1 isLast]
      exact changed terminator (held terminator inside)
  · exact held

/-- Instructions put into a block and the rest of it. -/
theorem forall_insertAt {holds : Instr → Prop} {block : Block} {instrs : List Instr}
    (held : ∀ instr ∈ block.instrs, holds instr) (new : ∀ instr ∈ instrs, holds instr)
    (place : Nat) : ∀ instr ∈ (block.insertAt place instrs).instrs, holds instr := by
  intro instr member
  simp only [insertAt, List.mem_append] at member
  rcases member with (before | added) | later
  · exact held instr (List.mem_of_mem_take before)
  · exact new instr added
  · exact held instr (List.mem_of_mem_drop later)

end Block

namespace FlowGraph

variable {graph after : FlowGraph}

/-! ## Edits -/

/-- A flow graph whose edge is split conforms: labels are changed, and a jump is added. -/
theorem Conforms.splitEdge (conforms : graph.Conforms discipline kinds) {source target name : String}
    (split : graph.splitEdge source target = .ok (name, after)) :
    after.Conforms discipline kinds := by
  obtain ⟨_, _, low, place, _, rfl⟩ := splitEdge_eq_ok split
  have left : (graph.modifyBlock source (Block.mapTerminator
      (Instr.mapLabels (replaceName target name)))).Conforms discipline kinds :=
    conforms.modifyBlock fun block member _ => Block.forall_mapTerminator (conforms.of_mem member)
      fun _ conformsInstr => conformsInstr.mapLabels _
  have linked : (graph.linked source target name).Conforms discipline kinds :=
    left.modifyBlock fun block member _ => Block.forall_mapPhis (left.of_mem member)
      fun _ conformsInstr => conformsInstr.mapLabels _
  refine linked.of_instrs rfl fun instr member => ?_
  obtain ⟨block, isBlock, inside⟩ := List.mem_flatMap.1 member
  rcases List.mem_append.1 isBlock with before | later
  · exact linked.of_mem (List.mem_of_mem_take before) instr inside
  · rcases List.mem_cons.1 later with rfl | later
    · rw [List.mem_singleton.1 inside]
      exact .jmp target low
    · exact linked.of_mem (List.mem_of_mem_drop later) instr inside

/-! ## From functions and back -/

/-- An entry is put in front. -/
theorem Conforms.addEntry (conforms : graph.Conforms discipline kinds) {entry : Option String}
    (added : graph.addEntry = .ok (entry, after)) : after.Conforms discipline kinds := by
  rcases addEntry_cases added with ⟨rfl, _⟩ | ⟨_, _, _, _, low, _, rfl⟩
  · exact conforms
  · refine conforms.of_instrs rfl fun instr member => ?_
    obtain ⟨block, isBlock, inside⟩ := List.mem_flatMap.1 member
    rcases List.mem_cons.1 isBlock with rfl | isOld
    · rw [List.mem_singleton.1 inside]
      exact .jmp graph.entryName low
    · exact conforms.of_mem isOld instr inside

/-- Blocks are ended by jumps and returns. -/
theorem Conforms.addTerminators (conforms : graph.Conforms discipline kinds)
    {changed : List String} (terminated : graph.addTerminators = .ok (changed, after)) :
    after.Conforms discipline kinds := by
  obtain ⟨⟨_, ended, last⟩, done, isAfter⟩ := Attempt.bind_eq_ok.1 terminated
  obtain ⟨_, rfl⟩ := Prod.mk.inj (Except.ok.inj isAfter)
  obtain ⟨endings, _, _, _, rfl⟩ := terminate_eq_ok done
  refine conforms.of_instrs rfl fun instr member => ?_
  obtain ⟨last, isBlock, inside⟩ := List.mem_flatMap.1 member
  obtain ⟨block, isOld, _, ending, instrs_eq, closing⟩ := exists_of_forall₂_right endings isBlock
  rw [instrs_eq] at inside
  rcases List.mem_append.1 inside with before | isEnding
  · exact conforms.of_mem isOld instr before
  · obtain ⟨key, _, low, ⟨target, rfl⟩ | rfl⟩ := closing instr isEnding
    · exact .jmp target low
    · exact .ret low

/-- The flow graph of a function that conforms does, and its blocks have names of their own. -/
theorem tidy_build {function : Func} {log : Log} (conforms : function.Conforms discipline kinds)
    (built : build function = .ok (graph, log)) : graph.Tidy discipline := by
  obtain ⟨start, _, entered, _, written, _, added, terminated⟩ := exists_stages_of_build built
  have startConforms : start.Conforms discipline kinds := by
    refine ⟨by rw [written.params_eq]; exact conforms.params, fun instr member => ?_⟩
    obtain ⟨block, isBlock, inside⟩ := List.mem_flatMap.1 member
    exact conforms.instrs instr ((written.straight block isBlock).2 instr inside)
  exact ⟨⟨kinds, (startConforms.addEntry added).addTerminators terminated⟩,
    nodup_names_of_build built⟩

/-- Labels in front of blocks may stand anywhere. -/
theorem admitted_flattenBlocks {blocks : List Block} {instrs : List Instr}
    (admitted : ∀ block ∈ blocks, ∀ instr ∈ block.instrs, instr.Admitted discipline)
    (flat : graph.flattenBlocks blocks = .ok instrs) :
    ∀ instr ∈ instrs, instr.Admitted discipline := by
  induction blocks generalizing graph instrs with
  | nil =>
    obtain rfl := Except.ok.inj flat
    exact nofun
  | cons block rest restIH =>
    rw [List.forall_mem_cons] at admitted
    obtain ⟨⟨key, keyed⟩, isKey, flat⟩ := Attempt.bind_eq_ok.1 flat
    obtain ⟨others, isRest, flat⟩ := Attempt.bind_eq_ok.1 flat
    obtain rfl := Except.ok.inj flat
    refine List.forall_mem_cons.2 ⟨⟨trivial, nofun, (freshKey_spec isKey).1⟩,
      fun instr member => ?_⟩
    rcases List.mem_append.1 member with here | later
    · exact admitted.1 instr here
    · exact restIH admitted.2 isRest instr later

/-- What is written out of a flow graph may stand in code as well. -/
theorem Admitted.flatten {function : Func} (admitted : graph.Admitted discipline)
    (flat : graph.flatten = .ok function) : function.Admitted discipline := by
  obtain ⟨instrs, areFlat, flat⟩ := Attempt.bind_eq_ok.1 flat
  obtain rfl := Except.ok.inj flat
  refine ⟨admitted.params, admitted_flattenBlocks (fun block isBlock instr inside => ?_) areFlat⟩
  exact admitted.instrs instr (List.mem_flatMap.2 ⟨block, isBlock, inside⟩)

end FlowGraph

end Midend
