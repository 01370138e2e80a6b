import Midend.Proofs.Checked.Evolution
import Midend.Proofs.Optimizer.Independence

/-! # Optimizing again

Whatever sequence of operations a flow graph of a function without merges goes through, it stays
regular and is read back as it is when it is written out (`FlowGraph.readsBack_of_evolves`). The
optimizer is such a sequence (`Optimizer.exists_evolved`), so what it makes of a function can be
optimized again. -/

namespace Midend

open Relation (ReflTransGen)

namespace FlowGraph

/-! ## Reading back -/

/-- What holds of every flow graph that operations make of the flow graph of a function: blocks have
names of their own; each ends once, at its end, and leads to blocks; nothing leads to the entry; and the
flow graph is read back when it is written out. -/
structure ReadsBack (graph : FlowGraph) : Prop where
  /-- Blocks have names of their own. -/
  nodup_names : graph.names.Nodup
  /-- Blocks are not empty. -/
  nonempty : ∀ block ∈ graph.blocks, block.instrs ≠ []
  /-- Blocks hold no labels. -/
  unlabelled : ∀ block ∈ graph.blocks, ∀ instr ∈ block.instrs, instr.isLabel = false
  /-- The last instruction of a block ends it, and no other one. -/
  ended : ∀ block ∈ graph.blocks, ∃ front terminator, block.instrs = front ++ [terminator] ∧
    terminator.isTerminator = true ∧ ∀ instr ∈ front, instr.isTerminator = false
  /-- Jumps and branches go to blocks. -/
  target_mem : ∀ block ∈ graph.blocks, ∀ instr ∈ block.instrs,
    instr.op? = some .jmp ∨ instr.op? = some .br → ∀ target ∈ instr.labels, target ∈ graph.names
  /-- Nothing leads to the entry. -/
  entry_fresh : ∃ entry, graph.blocks.head? = some entry ∧ graph.predecessorsOf entry.name = []
  /-- The flow graph can be written out, unless keys run out, and then it is read back. -/
  again : Manages (keyLimit ≤ graph.nextKey + graph.blocks.length) graph.flatten fun output =>
    output.check = .ok () ∧ (output.maxKey + 1 < keyLimit → ∃ again log,
      build output = .ok (again, log) ∧ again.sameCode graph = true ∧ again.pos = graph.pos)

/-- A regular flow graph is read back. -/
theorem Regular.readsBack {graph : FlowGraph} (regular : graph.Regular) : graph.ReadsBack := by
  obtain ⟨wellFormed, fit, named⟩ := regular
  refine ⟨wellFormed.nodup_names, fun block member => ?_,
    fun block member => (wellFormed.blocks block member).unlabelled, fun block member => ?_,
    fun block member instr inside isJump target isTarget => ?_, ?_, ?_⟩
  · obtain ⟨front, terminator, split, _⟩ := (wellFormed.blocks block member).exists_end
    simp [split]
  · obtain ⟨front, terminator, split, plain, ends⟩ := (wellFormed.blocks block member).exists_end
    exact ⟨front, terminator, split, ends, plain⟩
  · have ends : instr.isTerminator = true := by
      rcases isJump with isJump | isJump <;> rw [Instr.isTerminator, isJump] <;> rfl
    refine wellFormed.target_mem block member target ?_
    rw [(wellFormed.blocks block member).successors_of_mem inside ends, List.mem_eraseDups]
    exact isTarget
  · obtain ⟨entry, isEntry, _, isName⟩ := wellFormed.exists_entry
    exact ⟨entry, isEntry, by rw [isName, wellFormed.predecessorsOf_entry]⟩
  · rcases graph.flatten_cases with ⟨output, flat⟩ | failed
    · refine .inl ⟨output, flat, Func.check_eq_ok_iff.2 (checked_flatten wellFormed named flat),
        fun left => ⟨_, _, build_flatten wellFormed fit named flat left, ?_, rfl⟩⟩
      simp [sameCode]
    · exact .inr failed

/-- Operations on the flow graph of a function without merges leave one that is read back. -/
theorem readsBack_of_evolves {function : Func} {start after : FlowGraph} {log : Log}
    (built : build function = .ok (start, log))
    (unmerged : ∀ instr ∈ function.instrs, instr.isPhi = false)
    (evolves : ReflTransGen Evolves start after) : after.ReadsBack :=
  (regular_of_evolves evolves (.of_build built unmerged)).readsBack

end FlowGraph

namespace Optimizer

open Checked (Indexed)
open FlowGraph (Evolves)

variable {settings : Settings} {function output : Func}

/-- What becomes of a function that does not fail is the code of a flow graph that operations make of
its own. -/
theorem exists_evolved (comes : outcomeOf settings function = .ok (output, none)) :
    ∃ start log after, FlowGraph.build function = .ok (start, log) ∧
      ReflTransGen Evolves start after ∧ after.flatten = .ok output := by
  have cases := outcomeOf_cases (fun after => ∃ start log,
    FlowGraph.build function = .ok (start, log) ∧ ReflTransGen Evolves start after)
    (fun graph log built => ⟨graph, log, built, .refl⟩) ?_ ?_ ?_ comes
  · rcases cases with ⟨_, after, ⟨start, log, built, evolves⟩, flat⟩ | ⟨failed, _⟩
    · exact ⟨start, log, after, built, evolves, flat⟩
    · exact absurd rfl failed
  · rintro graph after _ ⟨start, log, built, evolves⟩ constructed
    exact ⟨start, log, built, evolves.tail (.construct constructed)⟩
  · rintro graph ⟨start, log, built, evolves⟩
    exact ⟨start, log, built, settings.schedule.kept_run (ReflTransGen Evolves start)
      (fun pass _ evolves => evolves.tail (.pass pass)) evolves⟩
  · rintro graph after _ ⟨start, log, built, evolves⟩ destructed
    exact ⟨start, log, built, evolves.tail (.destruct destructed)⟩

/-- What the optimizer makes of a function without merges passes the check, and can be optimized again
as long as there is a key left. -/
theorem exists_again (unmerged : ∀ instr ∈ function.instrs, instr.isPhi = false)
    {program : Program} {optimized : Optimized} (links : program.checkLinkage = .ok ())
    (member : function ∈ program.functions) (runs : run settings program = .ok optimized)
    (unfailed : ∀ error, (function.name, error) ∉ optimized.failures) :
    ∃ output, optimized.program.find? function.name = some output ∧ output.check = .ok () ∧
      (output.maxKey + 1 < keyLimit → ∃ again log, FlowGraph.build output = .ok (again, log)) := by
  have found := Program.find?_of_mem (Program.nodup_of_checkLinkage links) member
  rcases manages_separate settings links with ⟨_, isRun, separate⟩ | ⟨failed, _⟩
  · obtain rfl := Except.ok.inj (runs.symm.trans isRun)
    obtain ⟨output, failure, comes, isCode⟩ := separate.find? found
    cases failure with
    | some error =>
      exact absurd ((separate.failures _ _).2 ⟨function, output, found, comes⟩) (unfailed error)
    | none =>
      obtain ⟨start, log, after, built, evolves, flat⟩ := exists_evolved comes
      rcases (FlowGraph.readsBack_of_evolves built unmerged evolves).again with
        ⟨_, isFlat, checked, again⟩ | ⟨failed, _⟩
      · obtain rfl := Except.ok.inj (flat.symm.trans isFlat)
        refine ⟨output, isCode, checked, fun left => ?_⟩
        obtain ⟨next, events, rebuilt, _⟩ := again left
        exact ⟨next, events, rebuilt⟩
      · rw [flat] at failed
        cases failed
  · rw [runs] at failed
    cases failed

/-- Operations keep the flow graph of a function without merges in order, and nothing is lost when it
is written out. They are carried out with the index that is stored with the flow graph, in which each
block has its place afterwards. So what the optimizer makes of such a function passes the check, and
can be optimized again as long as there is a key left. -/
theorem evolution_readsBack {function : Func}
    (unmerged : ∀ instr ∈ function.instrs, instr.isPhi = false) :
    (∀ start log after, FlowGraph.build function = .ok (start, log) →
      ReflTransGen Evolves start after → after.ReadsBack ∧
        Indexed.build? function = Checked.ofExcept (.ok (.of start, log)) ∧
        ReflTransGen Checked.Evolves (.of start) (.of after)) ∧
    (∀ start log after, Indexed.build? function = Checked.ofExcept (.ok (start, log)) →
      ReflTransGen Checked.Evolves start after → after.Current ∧ after.graph.ReadsBack) ∧
    ∀ settings program optimized, program.checkLinkage = .ok () → function ∈ program.functions →
      run settings program = .ok optimized →
      (∀ error, (function.name, error) ∉ optimized.failures) →
        ∃ output, optimized.program.find? function.name = some output ∧ output.check = .ok () ∧
          (output.maxKey + 1 < keyLimit →
            ∃ again log, FlowGraph.build output = .ok (again, log)) := by
  refine ⟨fun start log after built evolves =>
    ⟨FlowGraph.readsBack_of_evolves built unmerged evolves, ?_, ?_⟩,
      fun start log after built evolves => ?_, ?_⟩
  · rw [Checked.build?_eq, built]
    rfl
  · exact (Checked.evolved_of_iff (.of_build built unmerged)).2 ⟨after, rfl, evolves⟩
  · rw [Checked.build?_eq, Checked.ofExcept_inj] at built
    obtain ⟨⟨plain, events⟩, isBuilt, same⟩ := Attempt.map_eq_ok.1 built
    obtain ⟨rfl, rfl⟩ := Prod.mk.inj same
    obtain ⟨next, rfl, evolved⟩ := (Checked.evolved_of_iff (.of_build isBuilt unmerged)).1 evolves
    have readsBack := FlowGraph.readsBack_of_evolves isBuilt unmerged evolved
    exact ⟨Checked.current_of readsBack.nodup_names, readsBack⟩
  exact fun settings program optimized links member runs unfailed =>
    exists_again unmerged links member runs unfailed

/-- The function that counts is read back, and found by its index, after unreachable blocks were looked
for, values were numbered and copies were coalesced. -/
theorem evolution_readsBack_countUp : (∀ instr ∈ Ssa.countUp.instrs, instr.isPhi = false) ∧
    ∃ start log after, FlowGraph.build Ssa.countUp = .ok (start, log) ∧
      after = (Coalescing.run (Pass.globalNumbering.run start.removeUnreachable.2).graph {}).1 ∧
      ReflTransGen Checked.Evolves (.of start) (.of after) ∧ (Indexed.of after).Current ∧
      after.ReadsBack := by
  refine ⟨by decide, _, _, _, rfl, rfl, ?_⟩
  have countUp := @evolution_readsBack Ssa.countUp (by decide)
  obtain ⟨readsBack, built, evolves⟩ := countUp.1 _ _ _ rfl
    (.tail (.tail (.single .removeUnreachable) (.pass .globalNumbering)) (.coalesce {}))
  exact ⟨evolves, (countUp.2.1 _ _ _ built evolves).1, readsBack⟩

end Optimizer

end Midend
