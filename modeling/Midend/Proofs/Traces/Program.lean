import Midend.Proofs.Optimizer.Independence
import Midend.Proofs.Traces.Conversions

/-! # Origins and the optimizer

Keys stay unique from the flow graph of a function through all stages until it is written out, and
lead back to the instructions that they were given to (`Optimizer.run_tracesTo`). -/

namespace Midend

namespace Optimizer

variable {settings : Settings}

/-- What becomes of a function with unique keys leads back to it. -/
theorem tracesTo_of_outcomeOf {function output : Func} {failure : Option Error}
    (unique : (function.instrs.map Instr.key).Nodup)
    (comes : outcomeOf settings function = .ok (output, failure)) : output.TracesTo function := by
  rcases outcomeOf_finished (FlowGraph.Traced Instr.Stays function)
      (fun graph => graph.Traced graph.Owns function) (FlowGraph.Traced Instr.StemsFrom function)
      (fun _ _ built => FlowGraph.traced_build unique built)
      (fun _ _ _ traced constructed => Ssa.traced_construct traced constructed)
      (fun _ traced => traced.mono fun _ _ => .inl)
      (fun _ traced => settings.schedule.traced_run traced)
      (fun _ _ _ traced destructed =>
        Ssa.traced_destruct (traced.mono fun _ _ => FlowGraph.Owns.stemsFrom) destructed)
      (fun _ traced => traced.mono fun _ _ => FlowGraph.Owns.stemsFrom) comes with
    ⟨_, graph, traced, flat⟩ | ⟨_, rfl⟩
  · exact traced.flatten flat
  · exact Func.tracesTo_self unique

/-- Whatever an optimizer is set to do, a function with unique keys comes out with unique keys, which
lead back to the instructions that they were given to: none of them is there twice, and what has the
key of one has its source position, its type, its variable, perhaps with a number, and its operation,
unless it became a copy or a constant. All other keys are greater. -/
theorem run_tracesTo {program : Program} {optimized : Optimized}
    (runs : run settings program = .ok optimized) {function : Func}
    (member : function ∈ program.functions) (unique : (function.instrs.map Instr.key).Nodup) :
    ∃ output, optimized.program.find? function.name = some output ∧ output.TracesTo function := by
  obtain ⟨_, links, _⟩ := Attempt.bind_eq_ok.1 runs
  have found := Program.find?_of_mem (Program.nodup_of_checkLinkage links) member
  rcases manages_separate settings links with ⟨_, isRun, separate⟩ | ⟨failed, _⟩
  · obtain rfl := Except.ok.inj (runs.symm.trans isRun)
    obtain ⟨output, failure, comes, isCode⟩ := separate.find? found
    exact ⟨output, isCode, tracesTo_of_outcomeOf unique comes⟩
  · rw [runs] at failed
    cases failed

/-- A function that writes a variable again after it was read. -/
def writesAgain : Func where
  name := "again"
  params := []
  returnType := none
  instrs := [(Instr.const "x" .int (.int 1)).withKey 1, (Instr.effect .print ["x"] []).withKey 2,
    (Instr.const "x" .int (.int 2)).withKey 3, (Instr.effect .print ["x"] []).withKey 4,
    (Instr.ret none).withKey 5]
  pos := none

/-- The function that counts, with keys in the order of its instructions. -/
def countsInOrder : Func := { Ssa.countUp with
  instrs := Ssa.countUp.instrs.zipIdx.map fun entry => entry.1.withKey (entry.2 + 1) }

/-- The function that writes a variable again comes out with its keys. So does the function that
counts, on its way through single assignment: variables are numbered, and copies, jumps and labels get
keys of their own. -/
theorem run_tracesTo_writesAgain : (writesAgain.instrs.map Instr.key).Nodup ∧
    (∃ optimized, run { ssa := false } ⟨[writesAgain]⟩ = .ok optimized ∧ optimized.failures = [] ∧
      ∃ output, optimized.program.find? "again" = some output ∧ output.TracesTo writesAgain) ∧
    (countsInOrder.instrs.map Instr.key).Nodup ∧
    ∃ optimized output, run {} ⟨[countsInOrder]⟩ = .ok optimized ∧ optimized.failures = [] ∧
      optimized.program.find? "count" = some output ∧ output.TracesTo countsInOrder ∧
      (output.instrs.map fun instr => (instr.key, instr.dest?)) =
        [(17, none), (1, some "i.0"), (2, some "one.0"), (15, some "i.1"), (10, none), (18, none),
          (4, some "i.2"), (5, some "more.1"), (6, none), (19, none), (16, some "i.1"), (14, none),
          (20, none), (8, none), (9, none)] := by
  refine ⟨by decide, ⟨_, rfl, rfl, @run_tracesTo { ssa := false } ⟨[writesAgain]⟩ _ rfl writesAgain
    (List.mem_singleton_self _) (by decide)⟩, by decide, ?_⟩
  have shows : (run {} ⟨[countsInOrder]⟩).map (fun optimized => optimized.failures.isEmpty &&
      decide ((optimized.program.find? "count").map (fun output =>
        output.instrs.map fun instr => (instr.key, instr.dest?)) =
          some [(17, none), (1, some "i.0"), (2, some "one.0"), (15, some "i.1"), (10, none),
            (18, none), (4, some "i.2"), (5, some "more.1"), (6, none), (19, none),
            (16, some "i.1"), (14, none), (20, none), (8, none), (9, none)])) = .ok true := by
    decide +kernel
  obtain ⟨optimized, runs, holds⟩ := Attempt.map_eq_ok.1 shows
  rw [Bool.and_eq_true, List.isEmpty_iff, decide_eq_true_iff] at holds
  obtain ⟨unfailed, keys⟩ := holds
  obtain ⟨output, found, traces⟩ :=
    run_tracesTo runs (List.mem_singleton_self countsInOrder) (by decide)
  rw [show countsInOrder.name = "count" from rfl] at found
  rw [found] at keys
  exact ⟨optimized, output, runs, unfailed, found, traces, Option.some.inj keys⟩

end Optimizer

end Midend
