import Midend.Dataflow.Liveness
import Midend.Proofs.Dataflow.Paths
import Midend.Proofs.FlowGraph.Rebuild
import Midend.Proofs.Semantics.Liveness
import Midend.Proofs.Sorted

/-! # What the liveness analysis finds

In code without merges the variables that the analysis finds live in front of instructions are those
that are wanted there (`Liveness.mem_stepBackAll`), and what is live at the start of a block is live
at the end of every block that leads to it (`Liveness.mem_liveOut_of_leads`).

In any code a variable is live at the start of a block exactly if some path from there leads to where
it is read, and nothing on the way writes it (`Liveness.solve_live_iff`). What a merge reads is read at
the end of the block that it comes from. -/

namespace Midend

namespace Liveness

/-- What is live in front of an instruction: what it reads unless it is a merge, and what is live
behind it and not written by it. -/
theorem mem_stepBack_iff {instr : Instr} {live : SortedSet String} {var : String} :
    var ∈ stepBack instr live ↔
      (instr.isPhi = false ∧ var ∈ instr.args) ∨ (instr.dest? ≠ some var ∧ var ∈ live) := by
  rw [stepBack]
  cases instr.dest? with
  | none => cases instr.isPhi <;> simp
  | some dest => cases instr.isPhi <;> simp [eq_comm]

/-- The variables that a solution has live at the end of a block. -/
def liveOut (live : Solution (SortedSet String)) (name : String) : SortedSet String :=
  (live.after? name).getD .empty

/-! ## Paths to where a variable is read -/

/-- An instruction that is no merge reads a variable, and none before it writes it. -/
def Exposes (instrs : List Instr) (var : String) : Prop :=
  ∃ front instr rest, instrs = front ++ instr :: rest ∧ instr.isPhi = false ∧ var ∈ instr.args ∧
    ∀ other ∈ front, other.dest? ≠ some var

/-- A leading merge takes a variable from a block. -/
def Takes (source : String) (target : Block) (var : String) : Prop :=
  ∃ phi ∈ target.phis, (source, var) ∈ phi.incoming

/-- An instruction exposes what it reads, and what is exposed behind it if it does not write it. -/
theorem exposes_cons {instr : Instr} {rest : List Instr} {var : String} :
    Exposes (instr :: rest) var ↔
      (instr.isPhi = false ∧ var ∈ instr.args) ∨ (instr.dest? ≠ some var ∧ Exposes rest var) := by
  constructor
  · rintro ⟨front, reader, later, split, notPhi, isArg, unwritten⟩
    cases front with
    | nil =>
      obtain ⟨rfl, _⟩ := List.cons.inj split
      exact .inl ⟨notPhi, isArg⟩
    | cons first front =>
      obtain ⟨rfl, isRest⟩ := List.cons.inj split
      rw [List.forall_mem_cons] at unwritten
      exact .inr ⟨unwritten.1, front, reader, later, isRest, notPhi, isArg, unwritten.2⟩
  · rintro (⟨notPhi, isArg⟩ | ⟨apart, front, reader, later, rfl, notPhi, isArg, unwritten⟩)
    · exact ⟨[], instr, rest, rfl, notPhi, isArg, nofun⟩
    · exact ⟨instr :: front, reader, later, rfl, notPhi, isArg,
        List.forall_mem_cons.2 ⟨apart, unwritten⟩⟩

/-- No instructions expose nothing. -/
theorem not_exposes_nil {var : String} : ¬Exposes [] var := by
  rintro ⟨front, _, _, split, _⟩
  simp at split

/-- Instructions do not write a variable if neither the first one nor the others do. -/
theorem notMem_dests_cons {instr : Instr} {rest : List Instr} {var : String} :
    var ∉ (instr :: rest).filterMap Instr.dest? ↔
      instr.dest? ≠ some var ∧ var ∉ rest.filterMap Instr.dest? := by
  simp only [List.mem_filterMap, List.exists_mem_cons_iff, not_or, ne_eq]

/-- What is live in front of instructions: what they expose, and what is live behind them and not
written by them. -/
theorem mem_stepBackAll_iff {instrs : List Instr} {live : SortedSet String} {var : String} :
    var ∈ stepBackAll instrs live ↔
      Exposes instrs var ∨ (var ∉ instrs.filterMap Instr.dest? ∧ var ∈ live) := by
  induction instrs with
  | nil => simp [stepBackAll, not_exposes_nil]
  | cons instr rest restIH =>
    rw [stepBackAll, List.foldr_cons, ← stepBackAll, mem_stepBack_iff, restIH, exposes_cons,
      notMem_dests_cons, and_or_left, or_assoc, and_assoc]

/-- What is wanted in front of instructions that are no merges: what they expose, and what is wanted
behind them and not written by them. -/
theorem wanted_iff {instrs : List Instr} (unmerged : ∀ instr ∈ instrs, instr.isPhi = false)
    {out : String → Prop} {var : String} : Instr.Wanted out instrs var ↔
      Exposes instrs var ∨ (var ∉ instrs.filterMap Instr.dest? ∧ out var) := by
  induction instrs with
  | nil => simp [Instr.Wanted, not_exposes_nil]
  | cons instr rest restIH =>
    have later := restIH fun other member => unmerged other (List.mem_cons_of_mem _ member)
    rw [Instr.Wanted, later, exposes_cons, notMem_dests_cons, unmerged instr (List.mem_cons_self ..),
      eq_self_iff_true, true_and, and_or_left, or_assoc, and_assoc]

/-- What is live in front of instructions that are no merges is what is wanted there. -/
theorem mem_stepBackAll {instrs : List Instr} (unmerged : ∀ instr ∈ instrs, instr.isPhi = false)
    {live : SortedSet String} {var : String} :
    var ∈ stepBackAll instrs live ↔ Instr.Wanted (· ∈ live) instrs var :=
  mem_stepBackAll_iff.trans (wanted_iff unmerged).symm

/-- What the leading merges of a block take from another one. -/
theorem mem_phiReads {source : String} {target : Block} {var : String} :
    var ∈ phiReads source target ↔ Takes source target var := by
  rw [phiReads, List.mem_flatMap]
  refine exists_congr fun phi => and_congr_right fun _ => ?_
  simp only [List.mem_map, List.mem_filter, decide_eq_true_eq, Prod.exists]
  constructor
  · rintro ⟨_, _, ⟨member, rfl⟩, rfl⟩
    exact member
  · exact fun member => ⟨source, var, ⟨member, rfl⟩, rfl⟩

/-- Liveness of a variable is a fact: a block gives it that exposes the variable, one that does not
write the variable keeps it, and an edge adds it along which a merge takes the variable. -/
theorem tracks (var : String) : analysis.Tracks (var ∈ ·) (fun block => Exposes block.instrs var)
    (fun block => var ∉ block.defs) (fun source target => Takes target.name source var) := by
  refine ⟨?_, fun states => ?_, fun block live => mem_stepBackAll_iff, fun source target live => ?_⟩
  · exact SortedSet.not_mem_empty var
  · exact SortedSet.mem_unionAll.trans (or_iff_right (SortedSet.not_mem_empty var))
  · exact SortedSet.mem_insertAll.trans (by rw [mem_phiReads])

variable {graph : FlowGraph} {block last : Block} {earlier : List Block} {var : String}

/-- A variable is live at the end of a block. -/
abbrev LiveAtEnd (graph : FlowGraph) (var : String) : Block → Prop :=
  analysis.Finds graph (var ∈ ·) (fun block => Exposes block.instrs var)
    (fun block => var ∉ block.defs) (fun source target => Takes target.name source var)

/-- A variable is live at the start of a block. -/
abbrev LiveAtStart (graph : FlowGraph) (var : String) (block : Block) : Prop :=
  Exposes block.instrs var ∨ var ∉ block.defs ∧ LiveAtEnd graph var block

/-- The last block of a path reads a variable, or a merge behind it does. -/
def ReadAtLast (graph : FlowGraph) (var : String) (last : Block) : Prop :=
  Exposes last.instrs var ∨
    (var ∉ last.defs ∧ ∃ target, graph.Links last target ∧ Takes last.name target var)

/-- A variable is live at the end of a block if it is live at the start of a successor, or taken by
one. -/
theorem liveAtEnd_iff : LiveAtEnd graph var block ↔
    ∃ target, graph.Links block target ∧
      (LiveAtStart graph var target ∨ Takes block.name target var) := by
  constructor
  · intro arrives
    cases arrives with
    | start starts => exact absurd starts.2.2 (SortedSet.not_mem_empty var)
    | @sent target _ links isSent => exact ⟨target, links, isSent.symm.imp_left .inl⟩
    | @kept target _ links isKept arrives => exact ⟨target, links, .inl (.inr ⟨isKept, arrives⟩)⟩
  · rintro ⟨target, links, (exposed | ⟨isKept, arrives⟩) | taken⟩
    · exact .sent links (.inr exposed)
    · exact .kept links isKept arrives
    · exact .sent links (.inl taken)

/-- A variable that is live at the end of a block that does not write it is read at the end of a path
from there. -/
theorem exists_path_of_liveAtEnd (arrives : LiveAtEnd graph var block)
    (unwritten : var ∉ block.defs) : ∃ last earlier, Path graph.Links block (last :: earlier) last ∧
      (∀ other ∈ earlier, var ∉ other.defs) ∧ ReadAtLast graph var last := by
  unfold LiveAtEnd Analysis.Finds at arrives
  induction arrives with
  | start starts => exact absurd starts.2.2 (SortedSet.not_mem_empty var)
  | @sent target block feeds isSent =>
    have links : graph.Links block target := feeds
    rcases isSent with taken | exposed
    · exact ⟨block, [], .start, nofun, .inr ⟨unwritten, target, links, taken⟩⟩
    · refine ⟨target, [block], Path.start.step links, fun other member => ?_, .inl exposed⟩
      rwa [List.mem_singleton.1 member]
  | @kept target block feeds isKept _ targetIH =>
    have links : graph.Links block target := feeds
    obtain ⟨last, earlier, path, kept, isRead⟩ := targetIH isKept
    refine ⟨last, earlier ++ [block], path.prepend links, fun other member => ?_, isRead⟩
    rcases List.mem_append.1 member with inEarlier | isBlock
    · exact kept other inEarlier
    · rwa [List.mem_singleton.1 isBlock]

/-- A variable that is live at the end of a path that does not write it is live where it starts. -/
theorem liveAtStart_of_path (path : Path graph.Links block (last :: earlier) last)
    (kept : ∀ other ∈ earlier, var ∉ other.defs) (isLive : LiveAtStart graph var last) :
    LiveAtStart graph var block := by
  generalize isNodes : last :: earlier = nodes at path
  induction path generalizing earlier with
  | start => exact isLive
  | @step nodes here next shorter links shorterIH =>
    obtain ⟨_, rfl⟩ := List.cons.inj isNodes
    obtain ⟨before, rfl⟩ := shorter.exists_eq_cons
    rw [List.forall_mem_cons] at kept
    exact shorterIH kept.2 (.inr ⟨kept.1, liveAtEnd_iff.2 ⟨next, links, .inl isLive⟩⟩) rfl

/-- A variable is live at the start of a block if some path from there leads to where it is read. -/
theorem liveAtStart_iff : LiveAtStart graph var block ↔
    ∃ last earlier, Path graph.Links block (last :: earlier) last ∧
      (∀ other ∈ earlier, var ∉ other.defs) ∧ ReadAtLast graph var last := by
  constructor
  · rintro (exposed | ⟨unwritten, arrives⟩)
    · exact ⟨block, [], .start, nofun, .inl exposed⟩
    · exact exists_path_of_liveAtEnd arrives unwritten
  · rintro ⟨last, earlier, path, kept, isRead⟩
    refine liveAtStart_of_path path kept (isRead.imp_right fun taken => ⟨taken.1, ?_⟩)
    obtain ⟨target, links, isTaken⟩ := taken.2
    exact liveAtEnd_iff.2 ⟨target, links, .inr isTaken⟩

/-- What a solution has live at the end of a block, and at its start. -/
theorem liveOut_spec {visits : Nat} {live : Solution (SortedSet String)}
    (solved : analysis.solve graph visits = .ok live) (nodup : graph.names.Nodup)
    (member : block ∈ graph.blocks) (var : String) :
    (var ∈ liveOut live block.name ↔ LiveAtEnd graph var block) ∧
      (var ∈ (live.before? block.name).getD .empty ↔
        var ∈ stepBackAll block.instrs (liveOut live block.name)) := by
  obtain ⟨after, before, ⟨isAfter, isBefore⟩, tells⟩ := Analysis.exists_states solved nodup member
  obtain ⟨atEnd, atStart⟩ := tells (tracks var)
  rw [liveOut, isAfter, isBefore, Option.getD_some, Option.getD_some, mem_stepBackAll_iff, atEnd]
  exact ⟨Iff.rfl, atStart⟩

/-- What is live at the start of a block is live at the end of every block that leads to it. -/
theorem mem_liveOut_of_leads {visits : Nat} {live : Solution (SortedSet String)}
    (solved : analysis.solve graph visits = .ok live) (nodup : graph.names.Nodup)
    (member : block ∈ graph.blocks) {target : Block} (targetMember : target ∈ graph.blocks)
    (leads : target.name ∈ block.successors)
    (isLive : var ∈ stepBackAll target.instrs (liveOut live target.name)) :
    var ∈ liveOut live block.name := by
  have links : graph.Links block target := ⟨member, targetMember, leads⟩
  rw [mem_stepBackAll_iff, (liveOut_spec solved nodup targetMember var).1] at isLive
  exact (liveOut_spec solved nodup member var).1.2 (liveAtEnd_iff.2 ⟨target, links, .inl isLive⟩)

/-- In the flow graph of a function a variable is live at the start of a block exactly if a path leads
from there, along which no block writes the variable, to a block that reads it before it writes it,
or that does not write it and leads to a merge which takes it from there. It is live at the end of a
block exactly if it is live at the start of a successor or taken by a leading merge of one. -/
theorem solve_live_iff {function : Func} {log : Log}
    (built : FlowGraph.build function = .ok (graph, log)) {visits : Nat}
    {solution : Solution (SortedSet String)} (solved : analysis.solve graph visits = .ok solution)
    (member : block ∈ graph.blocks) : ∃ before after,
      solution.before? block.name = some before ∧ solution.after? block.name = some after ∧
      ∀ var,
        (var ∈ before ↔ ∃ last earlier, Path graph.Links block (last :: earlier) last ∧
          (∀ other ∈ earlier, var ∉ other.defs) ∧
          (Exposes last.instrs var ∨ (var ∉ last.defs ∧
            ∃ target, graph.Links last target ∧ Takes last.name target var))) ∧
        (var ∈ after ↔ ∃ target, graph.Links block target ∧
          ((∃ live, solution.before? target.name = some live ∧ var ∈ live) ∨
            Takes block.name target var)) := by
  have nodup := FlowGraph.nodup_names_of_build built
  obtain ⟨after, before, ⟨isAfter, isBefore⟩, tells⟩ :=
    Analysis.exists_states solved nodup member
  refine ⟨before, after, isBefore, isAfter, fun var => ⟨?_, ?_⟩⟩
  · exact (tells (tracks var)).2.trans liveAtStart_iff
  · refine (tells (tracks var)).1.trans (liveAtEnd_iff.trans (exists_congr fun target =>
      and_congr_right fun links => or_congr_left ?_))
    -- The state at the start of a successor is known by the same theorem.
    obtain ⟨_, live, ⟨_, isLive⟩, tellsTarget⟩ :=
      Analysis.exists_states solved nodup links.target_mem
    rw [isLive]
    exact (tellsTarget (tracks var)).2.symm.trans (by simp)

/-- A loop that counts up to a bound, with a merge for the number. -/
def mergeLoop : Func where
  name := "count"
  params := [⟨"bound", .int⟩]
  returnType := none
  instrs := [.label "start", .const "zero" .int (.int 0), .const "one" .int (.int 1), .jmp "loop",
    .label "loop", .phi "i" .int ["zero", "next"] ["start", "loop"],
    .compute .add "next" .int ["i", "one"], .compute .lt "more" .bool ["next", "bound"],
    .br "more" "loop" "done", .label "done", .effect .print ["next"] [], .ret none]
  pos := none

/-- In the loop the number that the merge starts with is not live, and the bound is. -/
theorem solve_live_iff_mergeLoop : ∃ graph log solution block before,
    FlowGraph.build mergeLoop = .ok (graph, log) ∧ analysis.solve graph 100 = .ok solution ∧
    graph.find? "loop" = some block ∧ solution.before? "loop" = some before ∧
      "zero" ∉ before ∧ "bound" ∈ before ∧
        ∀ var, var ∈ before ↔ ∃ last earlier, Path graph.Links block (last :: earlier) last ∧
          (∀ other ∈ earlier, var ∉ other.defs) ∧ ReadAtLast graph var last := by
  obtain ⟨graph, log, solution, block, before, built, solved, found, isBefore, notLive, isLive⟩ :
      ∃ graph log solution block before, FlowGraph.build mergeLoop = .ok (graph, log) ∧
        analysis.solve graph 100 = .ok solution ∧ graph.find? "loop" = some block ∧
        solution.before? "loop" = some before ∧ "zero" ∉ before ∧ "bound" ∈ before :=
    ⟨_, _, _, _, _, rfl, rfl, rfl, rfl, by decide, by decide⟩
  refine ⟨graph, log, solution, block, before, built, solved, found, isBefore, notLive, isLive, ?_⟩
  obtain ⟨member, named⟩ := (FlowGraph.find?_eq_some_iff (FlowGraph.nodup_names_of_build built)).1 found
  obtain ⟨states, _, areStates, _, tells⟩ := solve_live_iff built solved member
  rw [named] at areStates
  obtain rfl := Option.some.inj (isBefore.symm.trans areStates)
  exact fun var => (tells var).1

end Liveness

end Midend
