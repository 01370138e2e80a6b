import Midend.Proofs.Pass.Written
import Midend.Proofs.Settling

/-! # What dead code elimination leaves

Dead code elimination leaves out instructions without side effects, block by block
(`DeadCode.prunes_rounds`), and ends with a round that finds nothing to leave out
(`DeadCode.quiet_of_settled`). Where a round finds nothing, the result of every instruction without
side effects is read by some instruction, and in its block before it is overwritten
(`DeadCode.allRead_of_quiet`): the scan of a block misses no write that is overwritten unread
(`DeadCode.reports_overwritten`). -/

namespace Midend

/-! ## Pruned code -/

/-- A block without some of its instructions that have no side effects. -/
structure Block.Prunes (block image : Block) : Prop where
  /-- The block keeps its name. -/
  name_eq : image.name = block.name
  /-- What is left stands in the old order. -/
  sublist : image.instrs.Sublist block.instrs
  /-- The instructions with side effects are left. -/
  effects_eq : (image.instrs.filter fun instr => !instr.isPure) =
    block.instrs.filter fun instr => !instr.isPure

/-- A flow graph whose blocks are pruned, and that is the same otherwise. -/
structure FlowGraph.Prunes (graph after : FlowGraph) : Prop where
  /-- Nothing but the blocks changes. -/
  rest_eq : after = { graph with blocks := after.blocks }
  /-- Every block is pruned. -/
  blocks : List.Forall₂ Block.Prunes graph.blocks after.blocks

namespace FlowGraph.Prunes

variable {graph middle after : FlowGraph}

/-- Nothing is left out. -/
theorem refl (graph : FlowGraph) : Prunes graph graph :=
  ⟨rfl, List.forall₂_same.2 fun _ _ => ⟨rfl, .refl _, rfl⟩⟩

/-- Pruning in two steps. -/
theorem trans (first : Prunes graph middle) (second : Prunes middle after) : Prunes graph after := by
  refine ⟨second.rest_eq.trans (by rw [first.rest_eq]), ?_⟩
  refine forall₂_trans (fun {block between image} left right => ?_) first.blocks second.blocks
  exact ⟨right.name_eq.trans left.name_eq, right.sublist.trans left.sublist,
    right.effects_eq.trans left.effects_eq⟩

end FlowGraph.Prunes

/-- Thinned code keeps the instructions with side effects. -/
theorem Thinned.effects_eq {out : String → Prop} {instrs kept : List Instr}
    (thinned : Thinned out instrs kept) :
    (kept.filter fun instr => !instr.isPure) = instrs.filter fun instr => !instr.isPure := by
  induction thinned with
  | nil => rfl
  | keep _ restIH => rw [List.filter_cons, List.filter_cons, restIH]
  | drop isPure _ _ _ restIH => rw [List.filter_cons, isPure, restIH]; rfl

/-- The blocks of a thinned flow graph are pruned. -/
theorem FlowGraph.Thins.prunes_blocks {out : String → Prop} {change : Block → Block}
    {graph after : FlowGraph} (thins : graph.Thins out change after) :
    List.Forall₂ Block.Prunes graph.blocks after.blocks := by
  refine forall₂_imp_of_mem thins.forall₂ ?_
  rintro block member image rfl
  have thinned := thins.thinned block member
  exact ⟨thins.block_name block, thinned.sublist, thinned.effects_eq⟩

/-! ## Code without dead instructions -/

/-- Code in which the result of every instruction without side effects is read. -/
structure FlowGraph.AllRead (graph : FlowGraph) : Prop where
  /-- Some instruction reads it. -/
  read : ∀ instr ∈ graph.instrs, instr.isPure = true → ∀ dest, instr.dest? = some dest →
    ∃ reader ∈ graph.instrs, dest ∈ reader.args
  /-- If it is overwritten in its block, an instruction up to there reads it. -/
  read_before : ∀ block ∈ graph.blocks, ∀ before instr between writer rest dest,
    block.instrs = before ++ instr :: (between ++ writer :: rest) → instr.isPure = true →
    instr.dest? = some dest → writer.dest? = some dest →
      ∃ reader ∈ between ++ [writer], dest ∈ reader.args

namespace DeadCode

/-- A pending write is reported if it is overwritten before it is read. -/
theorem reports_pending {between rest : List Instr} {writer : Instr} {index place : Nat}
    {pending : SortedMap String Nat} {dest : String} (isPending : pending.get? dest = some place)
    (overwrites : writer.dest? = some dest)
    (unread : ∀ reader ∈ between ++ [writer], dest ∉ reader.args) :
    ∃ other, other ∈ overwrittenFrom index (between ++ writer :: rest) pending := by
  induction between generalizing index pending with
  | nil =>
    have notArg := unread writer (List.mem_singleton_self writer)
    exact ⟨place, mem_overwrittenFrom_cons.2 (.inl ⟨dest, overwrites, notArg, isPending⟩)⟩
  | cons instr later laterIH =>
    rw [List.cons_append, List.forall_mem_cons] at unread
    by_cases writes : instr.dest? = some dest
    · exact ⟨place, mem_overwrittenFrom_cons.2 (.inl ⟨dest, writes, unread.1, isPending⟩)⟩
    · obtain ⟨other, reported⟩ := laterIH
        (get?_pendingAfter_eq_some_iff.2 (.inr ⟨writes, unread.1, isPending⟩)) unread.2
      exact ⟨other, mem_overwrittenFrom_cons.2 (.inr reported)⟩

/-- The scan of a block reports something if a write without side effects is overwritten unread. -/
theorem reports_overwritten {before between rest : List Instr} {instr writer : Instr} {index : Nat}
    {pending : SortedMap String Nat} {dest : String} (isPure : instr.isPure = true)
    (writes : instr.dest? = some dest) (overwrites : writer.dest? = some dest)
    (unread : ∀ reader ∈ between ++ [writer], dest ∉ reader.args) :
    ∃ other, other ∈
      overwrittenFrom index (before ++ instr :: (between ++ writer :: rest)) pending := by
  induction before generalizing index pending with
  | nil =>
    obtain ⟨other, reported⟩ := reports_pending
      (get?_pendingAfter_eq_some_iff.2 (.inl ⟨isPure, writes, rfl⟩)) overwrites unread
    exact ⟨other, mem_overwrittenFrom_cons.2 (.inr reported)⟩
  | cons first earlier earlierIH =>
    obtain ⟨other, reported⟩ := earlierIH
    exact ⟨other, mem_overwrittenFrom_cons.2 (.inr reported)⟩

/-! ## Quiet rounds -/

/-- Changes that report nothing report nothing of any block. -/
theorem quiet_changeBlocks {function : String} {change : Place → Block → Block × Log}
    {blocks : List Block} (quiet : (changeBlocks function change blocks).2 = []) {block : Block}
    (member : block ∈ blocks) : (change ⟨function, block.name, passName⟩ block).2 = [] := by
  induction blocks with
  | nil => cases member
  | cons first rest restIH =>
    obtain ⟨here, later⟩ := List.append_eq_nil_iff.1
      (show (change ⟨function, first.name, passName⟩ first).2 ++ _ = [] from quiet)
    rcases List.mem_cons.1 member with rfl | inRest
    · exact here
    · exact restIH later inRest

/-- A block of which no unused instruction is reported has none, and stays. -/
theorem dropUnused_of_quiet {read : SortedSet String} {place : Place} {block : Block}
    (quiet : (dropUnused read place block).2 = []) :
    (dropUnused read place block).1 = block ∧ ∀ instr ∈ block.instrs, isUnused read instr = false := by
  rw [dropUnused, List.partition_eq_filter_filter] at quiet ⊢
  have used : ∀ instr ∈ block.instrs, isUnused read instr = false := fun instr member =>
    Bool.not_eq_true _ ▸ List.filter_eq_nil_iff.1 (List.map_eq_nil_iff.1 quiet) instr member
  refine ⟨?_, used⟩
  dsimp only
  rw [List.filter_eq_self.2 fun instr member => by simp [used instr member]]

/-- A block of which no overwritten instruction is reported has none. -/
theorem overwrittenFrom_of_quiet {place : Place} {block : Block}
    (quiet : (dropOverwritten place block).2 = []) (other : Nat) :
    other ∉ overwrittenFrom 0 block.instrs .empty := by
  intro reported
  rw [dropOverwritten, List.partition_eq_filter_filter] at quiet
  have none := List.filter_eq_nil_iff.1 (List.map_eq_nil_iff.1 quiet)
  -- What is reported is the place of an instruction.
  rcases overwritten_spec (by simp) reported with ⟨var, found, _⟩ |
    ⟨before, instr, rest, dest, split, isPlace, _⟩
  · simp at found
  · refine none (instr, other) ?_ (by simpa using reported)
    rw [List.mem_zipIdx_iff_getElem?, split, ← isPlace]
    simp

/-- Where a round finds nothing, nothing is dead. -/
theorem allRead_of_quiet {graph : FlowGraph} (quiet : (round graph).2 = []) : graph.AllRead := by
  obtain ⟨unused, overwritten⟩ := List.append_eq_nil_iff.1
    (show (changeBlocks graph.name (dropUnused (readVars graph)) graph.blocks).2 ++
      (changeBlocks graph.name dropOverwritten (withoutUnused graph).blocks).2 = [] from quiet)
  have used := fun block (member : block ∈ graph.blocks) =>
    dropUnused_of_quiet (quiet_changeBlocks unused member)
  have blocks_eq : (withoutUnused graph).blocks = graph.blocks := by
    rw [withoutUnused, changeBlocks_eq]
    exact (List.map_congr_left fun block member => (used block member).1).trans (List.map_id _)
  rw [blocks_eq] at overwritten
  refine ⟨fun instr inside isPure dest writes => ?_,
    fun block member before instr between writer rest dest split isPure writes overwrites => ?_⟩
  · obtain ⟨block, member, inBlock⟩ := List.mem_flatMap.1 inside
    have isUsed := (used block member).2 instr inBlock
    rw [isUnused, isPure, writes, Bool.true_and, Bool.not_eq_false', SortedSet.contains_iff,
      readVars, SortedSet.mem_ofList] at isUsed
    exact List.mem_flatMap.1 isUsed
  · by_contra unread
    push Not at unread
    obtain ⟨other, reported⟩ :=
      @reports_overwritten before between rest instr writer 0 .empty dest isPure writes overwrites
        unread
    rw [← split] at reported
    exact overwrittenFrom_of_quiet (quiet_changeBlocks overwritten member) other reported

/-- Rounds that settle end with one that finds nothing. -/
theorem quiet_of_settled {budget : Nat} {graph : FlowGraph}
    (settled : (rounds budget graph).2.2 = true) : (round (rounds budget graph).1).2 = [] := by
  induction budget generalizing graph with
  | zero => cases settled
  | succ budget budgetIH =>
    rw [rounds_succ] at settled ⊢
    split
    · rename_i isQuiet
      exact List.isEmpty_iff.1 isQuiet
    · rename_i isReported
      rw [if_neg isReported] at settled
      exact budgetIH settled

/-- Where a round finds nothing, dead code elimination does nothing. -/
theorem run_of_quiet {graph : FlowGraph} (quiet : (round graph).2 = []) :
    run graph none = (graph, [], .ok ()) := by
  rw [run, roundLimit]
  dsimp only
  rw [rounds_succ, quiet]
  rfl

/-- A round prunes a flow graph. -/
theorem prunes_round (graph : FlowGraph) : graph.Prunes (round graph).1 := by
  have unused : graph.Prunes (withoutUnused graph) := ⟨rfl, (thins_withoutUnused graph).prunes_blocks⟩
  rw [round_eq]
  exact unused.trans ⟨rfl, (thins_withoutOverwritten _).prunes_blocks⟩

/-- Rounds prune a flow graph, however many there are. -/
theorem prunes_rounds (budget : Nat) (graph : FlowGraph) : graph.Prunes (rounds budget graph).1 := by
  induction budget generalizing graph with
  | zero => exact .refl graph
  | succ budget budgetIH =>
    rw [rounds_succ]
    split
    · exact .refl graph
    · exact (prunes_round graph).trans (budgetIH _)

end DeadCode

namespace Pass

/-- Dead code elimination of the flow graph of any function in which merges come first never gives
up. It only leaves out instructions without side effects, leaves none whose result is not read or is
overwritten in its block before it is read, finds nothing to do when it is run again, and what it
leaves yields, written out, whatever it yielded before. -/
theorem deadCode_spec {function : Func} {graph : FlowGraph} {log : Log}
    (built : FlowGraph.build function = .ok (graph, log))
    (leading : ∀ block ∈ graph.blocks, ∀ instr ∈ block.body, instr.isPhi = false) :
    (∃ changed, ((deadCode none).run graph).result = .ok changed) ∧
    graph.Prunes ((deadCode none).run graph).graph ∧
    ((deadCode none).run graph).graph.AllRead ∧
    (deadCode none).run ((deadCode none).run graph).graph =
      ⟨((deadCode none).run graph).graph, [], .ok false⟩ ∧
    ∀ input, graph.flatten = .ok input →
      ∃ output, ((deadCode none).run graph).graph.flatten = .ok output ∧
        ∀ machine calls args answer, input.Yields machine calls args answer →
          output.Yields machine calls args answer := by
  have wellFormed := (FlowGraph.builtFrom_of_build built).wellFormed leading
  have ready : Ready false graph := ⟨wellFormed, nofun, nofun⟩
  have allowed : (deadCode none).Allowed false := nofun
  have cleans := DeadCode.run_spec wellFormed none
  have graph_eq : ((deadCode none).run graph).graph = (DeadCode.run graph none).1 := rfl
  have prunes : graph.Prunes (DeadCode.run graph none).1 :=
    DeadCode.prunes_rounds (DeadCode.roundLimit graph none) graph
  have quiet : (DeadCode.round (DeadCode.run graph none).1).2 = [] :=
    DeadCode.quiet_of_settled (DeadCode.settled_of_lt (Nat.lt_succ_self _))
  rw [graph_eq]
  generalize (DeadCode.run graph none).1 = after at cleans prunes quiet
  refine ⟨(run_spec ready allowed).2 nofun, prunes, DeadCode.allRead_of_quiet quiet, ?_,
    fun input isInput => ?_⟩
  · rw [run]
    dsimp only
    rw [DeadCode.run_of_quiet quiet]
    rfl
  · obtain ⟨output, isOutput⟩ := FlowGraph.exists_flatten wellFormed.nonempty
      prunes.blocks.length_eq.symm cleans.nextKey_eq isInput
    refine ⟨output, isOutput, fun machine calls args answer yields => ?_⟩
    rw [FlowGraph.yields_flatten_iff wellFormed isInput] at yields
    rw [FlowGraph.yields_flatten_iff (cleans.recoded.wellFormed wellFormed) isOutput]
    exact cleans.refines machine calls args answer yields

/-- A function with a chain of variables of which only the last one is unread, a write that is
overwritten unread, and one that is overwritten by what reads it. -/
def leavesDead : Func where
  name := "dead"
  params := [⟨"a", .int⟩]
  returnType := some .int
  instrs := [.compute .id "x" .int ["a"], .compute .add "y" .int ["x", "x"],
    .compute .mul "z" .int ["y", "y"], .const "b" .int (.int 1), .const "b" .int (.int 2),
    .compute .add "b" .int ["b", "a"], .ret (some "b")]
  pos := none

/-- Of the function with dead code the sum is left, and the constant in it. -/
theorem deadCode_spec_leavesDead : ∃ graph log input output,
    FlowGraph.build leavesDead = .ok (graph, log) ∧ graph.flatten = .ok input ∧
    ((deadCode none).run graph).result = .ok true ∧
    ((deadCode none).run graph).graph.instructionCount = 3 ∧
    ((deadCode none).run graph).graph.AllRead ∧
    ((deadCode none).run graph).graph.flatten = .ok output ∧
      output.Yields .withoutFloats (fun _ _ => none) [.int 3] ⟨[], some (.int 5)⟩ := by
  obtain ⟨-, -, isRead, -, keeps⟩ := @deadCode_spec leavesDead _ _ rfl (by decide)
  obtain ⟨output, isOutput, yields⟩ := keeps _ rfl
  exact ⟨_, _, _, output, rfl, rfl, rfl, rfl, isRead, isOutput, yields _ _ _ _ ⟨20, rfl⟩⟩

end Pass

end Midend
