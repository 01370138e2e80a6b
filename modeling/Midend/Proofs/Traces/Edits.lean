import Midend.Proofs.FlowGraph.Division
import Midend.Proofs.Traces.Basic

/-! # Origins and flow graphs

The flow graph of a function leads back to it (`FlowGraph.traced_build`), it develops when edges are
split and instructions are put into blocks, and the keys of labels are new when it is written out
(`FlowGraph.Traced.flatten`). -/

namespace Midend

namespace Block

variable {block : Block}

/-- Changed operands of leading merges. -/
theorem alters_mapPhis {change : Instr → Instr} (stay : ∀ instr : Instr, instr.Stays (change instr)) :
    Alters block.instrs (block.mapPhis change).instrs [] := by
  have phis : List.Forall₂ Instr.Stays block.phis (block.phis.map change) :=
    List.forall₂_map_right_iff.2 (List.forall₂_same.2 fun instr _ => stay instr)
  have altered := (Alters.of_forall₂ phis).append (.refl block.body)
  rwa [block.phis_append_body] at altered

/-- Changed operands of a terminator. -/
theorem alters_mapTerminator {change : Instr → Instr}
    (stay : ∀ instr : Instr, instr.Stays (change instr)) :
    Alters block.instrs (block.mapTerminator change).instrs [] := by
  unfold mapTerminator
  split
  · rename_i terminator found
    obtain ⟨front, split⟩ :=
      List.getLast?_eq_some_iff.1 (Option.filter_eq_some_iff.1 found).1
    have altered := (Alters.refl front).append
      (Alters.of_forall₂ (.cons (stay terminator) .nil))
    rw [split, List.dropLast_concat]
    exact altered
  · exact .refl _

/-- Instructions are put into a block. -/
theorem alters_insertAt (block : Block) (place : Nat) (instrs : List Instr) :
    Alters block.instrs (block.insertAt place instrs).instrs (instrs.map Instr.tag) :=
  (Alters.add block.instrs instrs).perm (.refl _) (block.perm_insertAt place instrs)

end Block

namespace FlowGraph

variable {graph after : FlowGraph}

/-! ## Edits -/

/-- Blocks are altered one by one. -/
theorem alters_map {blocks : List Block} {change : Block → Block}
    (each : ∀ block ∈ blocks, Alters block.instrs (change block).instrs []) :
    Alters (blocks.flatMap Block.instrs) ((blocks.map change).flatMap Block.instrs) [] := by
  induction blocks with
  | nil => exact .refl []
  | cons block rest restIH =>
    rw [List.forall_mem_cons] at each
    exact each.1.append (restIH each.2)

/-- The blocks of a name are altered. -/
theorem alters_modify (graph : FlowGraph) (name : String) {change : Block → Block}
    (each : ∀ block : Block, Alters block.instrs (change block).instrs []) :
    Alters graph.instrs (graph.modifyBlock name change).instrs [] := by
  refine alters_map fun block _ => ?_
  split
  · exact each block
  · exact .refl _

/-- A flow graph develops when instructions with fresh keys are put into a block. -/
theorem develops_insertAt (nodup : graph.names.Nodup) {instrs keyed : List Instr}
    {middle : FlowGraph} (areKeyed : graph.freshKeys instrs = .ok (keyed, middle)) (name : String)
    (place : Block → Nat) :
    graph.Develops (middle.modifyBlock name fun block => block.insertAt (place block) keyed) := by
  have keys := map_key_of_freshKeys areKeyed
  obtain ⟨_, rfl⟩ := freshKeys_eq_ok areKeyed
  have nextKey_le : graph.nextKey ≤ graph.nextKey + instrs.length := Nat.le_add_right ..
  cases found : graph.find? name with
  | none =>
    have unfound : FlowGraph.find? { graph with nextKey := graph.nextKey + instrs.length } name =
        none := found
    rw [modifyBlock_of_find?_eq_none unfound]
    exact .of_alters (.refl _) nextKey_le
  | some block =>
    refine ⟨nextKey_le, keyed.map Instr.tag,
      alters_modifyBlock nodup found (block.alters_insertAt (place block) keyed),
      List.Perm.subperm (.of_eq ?_)⟩
    rw [List.map_map, newKeys_eq rfl]
    exact keys

/-- Instructions that are put into a block keep the names of blocks. -/
theorem names_insertAt {instrs keyed : List Instr} {middle : FlowGraph}
    (areKeyed : graph.freshKeys instrs = .ok (keyed, middle)) (name : String) (place : Block → Nat) :
    (middle.modifyBlock name fun block => block.insertAt (place block) keyed).names = graph.names := by
  obtain ⟨_, rfl⟩ := freshKeys_eq_ok areKeyed
  exact names_modifyBlock _ (fun block => block.insertAt (place block) keyed) (fun _ => rfl) name

/-- A flow graph develops when an edge is split. -/
theorem develops_splitEdge {source target name : String}
    (split : graph.splitEdge source target = .ok (name, after)) : graph.Develops after := by
  obtain ⟨_, _, _, place, _, rfl⟩ := splitEdge_eq_ok split
  have linked : Alters graph.instrs (graph.linked source target name).instrs [] :=
    (alters_modify graph source fun block => block.alters_mapTerminator
      fun instr => instr.stays_mapOperands _).trans
        (alters_modify _ target fun block => block.alters_mapPhis
          fun instr => instr.stays_mapOperands _)
  -- Labels are exchanged within instructions; only the jump is new.
  have added := linked.trans (.add (graph.linked source target name).instrs
    [(Instr.jmp target).withKey graph.nextKey])
  refine ⟨Nat.le_succ _, _, added.perm (.refl _) ?_, ?_⟩
  · refine (List.perm_middle.flatMap_right Block.instrs).trans ?_
    rw [List.take_append_drop, List.flatMap_cons]
    exact List.perm_append_comm
  · rw [newKeys_eq rfl]
    exact .refl _

/-! ## From functions and back -/

/-- A flow graph develops when an entry is added. -/
theorem develops_addEntry {entry : Option String} (added : graph.addEntry = .ok (entry, after)) :
    graph.Develops after := by
  rcases addEntry_cases added with ⟨rfl, _⟩ | ⟨name, _, _, _, _, _, rfl⟩
  · exact .refl _
  · refine ⟨Nat.le_succ _, _,
      (Alters.add graph.instrs [(Instr.jmp graph.entryName).withKey graph.nextKey]).perm (.refl _)
        List.perm_append_comm, ?_⟩
    rw [newKeys_eq rfl]
    exact .refl _

/-- The next key is the one new key when a key is given out. -/
theorem newKeys_succ : graph.newKeys { graph with nextKey := graph.nextKey + 1 } = [graph.nextKey] := by
  rw [newKeys_eq rfl]
  rfl

/-- Blocks that are ended keep their instructions, and those that end them have new keys. -/
theorem alters_terminate {blocks ended : List Block} {changed : List String}
    (terminated : graph.terminate blocks = .ok (changed, ended, after)) :
    graph.nextKey ≤ after.nextKey ∧ ∃ added,
      Alters (blocks.flatMap Block.instrs) (ended.flatMap Block.instrs) added ∧
        added.map Prod.fst = graph.newKeys after := by
  induction blocks generalizing graph changed ended with
  | nil =>
    obtain ⟨rfl, rfl, rfl⟩ : [] = changed ∧ [] = ended ∧ graph = after := by
      simpa [terminate] using terminated
    exact ⟨Nat.le_refl _, [], .refl [], by rw [newKeys, Nat.sub_self]; rfl⟩
  | cons block rest restIH =>
    rcases terminate_cons_cases terminated with ⟨_, others, isRest, rfl⟩ |
      ⟨_, _, others, _, isRest, _, rfl⟩
    · obtain ⟨nextKey_le, added, alters, keys⟩ := restIH isRest
      exact ⟨nextKey_le, added, (Alters.refl block.instrs).append alters, keys⟩
    · have isLess : graph.nextKey ≤ graph.nextKey + 1 := Nat.le_succ _
      obtain ⟨nextKey_le, added, alters, keys⟩ := restIH isRest
      refine ⟨isLess.trans nextKey_le, _, (Alters.add block.instrs [_]).append alters, ?_⟩
      rw [List.map_append, keys, ← newKeys_append isLess nextKey_le, newKeys_succ]
      rfl

/-- A flow graph develops when its blocks are ended. -/
theorem develops_addTerminators {changed : List String}
    (terminated : graph.addTerminators = .ok (changed, after)) : graph.Develops after := by
  obtain ⟨⟨_, ended, last⟩, done, isAfter⟩ := Attempt.bind_eq_ok.1 terminated
  obtain ⟨_, rfl⟩ := Prod.mk.inj (Except.ok.inj isAfter)
  obtain ⟨nextKey_le, added, alters, keys⟩ := alters_terminate done
  exact ⟨nextKey_le, added, alters, List.Perm.subperm (.of_eq keys)⟩

/-- The flow graph of a function with unique keys leads back to it. -/
theorem traced_build {function : Func} {log : Log}
    (unique : (function.instrs.map Instr.key).Nodup) (built : build function = .ok (graph, log)) :
    graph.Traced Instr.Stays function := by
  obtain ⟨start, _, entered, _, written, cutUp, added, terminated⟩ := exists_stages_of_build built
  -- Labels become names of blocks, so their keys are gone.
  have instrs_eq : start.instrs = function.instrs.filter fun instr => !instr.isLabel :=
    flatMap_instrs_of_ofSegments cutUp
  have isStart : start.Traced Instr.Stays function := by
    refine ⟨written.nodup_names, ⟨?_, fun instr member => ?_⟩, ?_, fun instr member _ => ?_⟩
    · rw [instrs_eq]
      exact unique.sublist (List.filter_sublist.map Instr.key)
    · rw [instrs_eq] at member
      rw [written.nextKey_eq]
      exact Nat.lt_succ_of_le (Func.key_le_maxKey (List.mem_filter.1 member).1)
    · rw [written.nextKey_eq]
      exact Nat.lt_succ_self _
    · rw [instrs_eq] at member
      exact ⟨instr, (List.mem_filter.1 member).1, .refl instr⟩
  exact isStart.develops (nodup_names_of_build built)
    ((develops_addEntry added).trans (develops_addTerminators terminated))
    fun _ _ _ stays stayed => stays.trans stayed

/-- What is written out of blocks: their instructions, and labels with new keys. -/
theorem flattenBlocks_spec {blocks : List Block} {instrs : List Instr}
    (flat : graph.flattenBlocks blocks = .ok instrs) :
    (instrs.map Instr.key).Perm ((blocks.flatMap Block.instrs).map Instr.key ++
      List.range' graph.nextKey blocks.length) ∧
    ∀ instr ∈ instrs, graph.nextKey ≤ instr.key ∨ instr ∈ blocks.flatMap Block.instrs := by
  induction blocks generalizing graph instrs with
  | nil =>
    obtain rfl := Except.ok.inj flat
    exact ⟨.refl _, nofun⟩
  | cons block rest restIH =>
    obtain ⟨⟨key, middle⟩, isKey, flat⟩ := Attempt.bind_eq_ok.1 flat
    obtain ⟨others, isRest, flat⟩ := Attempt.bind_eq_ok.1 flat
    obtain rfl := Except.ok.inj flat
    obtain ⟨rfl, rfl⟩ := freshKey_eq_ok isKey
    obtain ⟨keys, origins⟩ := restIH isRest
    constructor
    · rw [List.map_cons, List.map_append, List.flatMap_cons, List.map_append, List.length_cons,
        List.range'_succ]
      refine (List.Perm.cons _ (keys.append_left _)).trans ?_
      rw [← List.append_assoc]
      exact List.perm_middle.symm
    · intro instr member
      rw [List.flatMap_cons]
      rcases List.mem_cons.1 member with rfl | member
      · exact .inl (Nat.le_refl _)
      · rcases List.mem_append.1 member with here | later
        · exact .inr (List.mem_append_left _ here)
        · rcases origins instr later with isNew | inRest
          · exact .inl (Nat.le_of_succ_le isNew)
          · exact .inr (List.mem_append_right _ inRest)

end FlowGraph

/-! ## Functions -/

/-- A function in which keys are unique and lead to the instructions of another one that they come
from, none of which is there twice. -/
structure Func.TracesTo (output function : Func) : Prop where
  /-- Keys are unique. -/
  nodup : (output.instrs.map Instr.key).Nodup
  /-- No instruction that comes from the function is there twice. -/
  once : ∀ origin ∈ function.instrs, origin.isLabel = false →
    (output.instrs.map Instr.key).count origin.key ≤ 1
  /-- What has no new key comes from the instruction of the function with that key. -/
  exists_origin : ∀ instr ∈ output.instrs, instr.key ≤ function.maxKey →
    ∃ origin ∈ function.instrs, origin.key = instr.key ∧ origin.StemsFrom instr

/-- Unique keys leave no instruction twice. -/
theorem Func.TracesTo.of_nodup {output function : Func}
    (nodup : (output.instrs.map Instr.key).Nodup)
    (exists_origin : ∀ instr ∈ output.instrs, instr.key ≤ function.maxKey →
      ∃ origin ∈ function.instrs, origin.StemsFrom instr) : output.TracesTo function := by
  refine ⟨nodup, fun origin _ _ => List.nodup_iff_count_le_one.1 nodup origin.key,
    fun instr member isOld => ?_⟩
  obtain ⟨origin, inside, stems⟩ := exists_origin instr member isOld
  exact ⟨origin, inside, stems.key_eq.symm, stems⟩

/-- A function with unique keys leads to itself. -/
theorem Func.tracesTo_self {function : Func} (unique : (function.instrs.map Instr.key).Nodup) :
    function.TracesTo function :=
  .of_nodup unique fun instr member _ => ⟨instr, member, (Instr.Stays.refl instr).stemsFrom⟩

/-- What is written out of a flow graph that leads back to a function does so, too. -/
theorem FlowGraph.Traced.flatten {function output : Func} {graph : FlowGraph}
    (traced : graph.Traced Instr.StemsFrom function) (flat : graph.flatten = .ok output) :
    output.TracesTo function := by
  obtain ⟨instrs, areFlat, flat⟩ := Attempt.bind_eq_ok.1 flat
  obtain rfl := Except.ok.inj flat
  obtain ⟨keys, origins⟩ := flattenBlocks_spec areFlat
  refine .of_nodup (keys.nodup_iff.2 (List.nodup_append.2 ⟨traced.keyed.nodup, List.nodup_range', ?_⟩))
    fun instr member isOld => ?_
  · rintro key isOld _ isNew rfl
    obtain ⟨instr, inside, rfl⟩ := List.mem_map.1 isOld
    exact absurd (List.mem_range'_1.1 isNew).1 (Nat.not_le.2 (traced.keyed.lt_nextKey instr inside))
  · refine traced.exists_origin instr ((origins instr member).resolve_left fun isNew => ?_) isOld
    exact absurd (traced.maxKey_lt.trans_le isNew) (Nat.not_lt.2 isOld)

end Midend
