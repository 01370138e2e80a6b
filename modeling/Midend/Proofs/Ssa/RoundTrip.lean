import Mathlib.Tactic.Ring
import Midend.Proofs.FlowGraph.Flatten
import Midend.Proofs.Pass
import Midend.Proofs.Ssa.Budget
import Midend.Proofs.Ssa.Names

/-! # Into single assignment and back

A function without merges gets into single assignment, stays there whatever passes are run, and gets
out again, unless there are no keys left for the instructions that this adds
(`Ssa.construct_inSsa`). What it yields does not change on the way in (`Ssa.construct_preserves`). -/

namespace Midend

/-! ## Keys -/

/-- The number of instructions and parameters of a function, and three more for the instructions that
every flow graph may get. -/
def Func.extent (function : Func) : Nat := function.instrs.length + function.params.length + 3

/-- The powers of an extent. -/
theorem Func.three_mul_extent_le (function : Func) : 3 * function.extent ≤ function.extent ^ 2 ∧
    3 * function.extent ^ 2 ≤ function.extent ^ 3 := by
  have three : 3 ≤ function.extent := Nat.le_add_left ..
  rw [pow_succ _ 2, pow_two, Nat.mul_comm 3 (_ * _)]
  exact ⟨Nat.mul_le_mul_right _ three, Nat.mul_le_mul_left _ three⟩

/-- There are keys left for all that single assignment adds to a function. -/
def Func.LeavesKeys (function : Func) : Prop :=
  function.maxKey + 32 * function.extent ^ 3 < keyLimit

instance (function : Func) : Decidable function.LeavesKeys := inferInstanceAs (Decidable (_ < _))

/-- A computation with a good answer, unless keys are exhausted, which has a cause. -/
def Manages {α : Type} (cause : Prop) (attempt : Except Error α) (good : α → Prop) : Prop :=
  (∃ answer, attempt = .ok answer ∧ good answer) ∨ (attempt = .error .keysExhausted ∧ cause)

namespace Manages

variable {α β : Type} {cause : Prop} {attempt : Except Error α} {good : α → Prop}

/-- One step after another. -/
theorem bind (manages : Manages cause attempt good) {next : α → Except Error β} {better : β → Prop}
    (goesOn : ∀ answer, good answer → Manages cause (next answer) better) :
    Manages cause (attempt >>= next) better := by
  rcases manages with ⟨answer, isAnswer, isGood⟩ | ⟨failed, isCause⟩
  · rw [isAnswer, Attempt.ok_bind]
    exact goesOn answer isGood
  · exact .inr ⟨by rw [failed]; rfl, isCause⟩

/-- More is good, and more may be the cause. -/
theorem mono (manages : Manages cause attempt good) {other : Prop} {better : α → Prop}
    (causes : cause → other) (implies : ∀ answer, good answer → better answer) :
    Manages other attempt better :=
  manages.imp (fun ⟨answer, isAnswer, isGood⟩ => ⟨answer, isAnswer, implies answer isGood⟩)
    (And.imp_right causes)

/-- One element of a list after another. -/
theorem mapM {step : α → Except Error β} {good : α → β → Prop} {list : List α}
    (each : ∀ element ∈ list, Manages cause (step element) (good element)) :
    Manages cause (list.mapM step) (List.Forall₂ good list) := by
  induction list with
  | nil => exact .inl ⟨[], rfl, .nil⟩
  | cons head tail tailIH =>
    rw [List.mapM_cons]
    refine (each head (List.mem_cons_self ..)).bind fun answer isGood => ?_
    refine (tailIH fun element member => each element (List.mem_cons_of_mem _ member)).bind
      fun answers areGood => ?_
    exact .inl ⟨answer :: answers, rfl, .cons isGood areGood⟩

/-- Without a cause there is a good answer. -/
theorem exists_answer (manages : Manages cause attempt good) (uncaused : ¬cause) :
    ∃ answer, attempt = .ok answer ∧ good answer :=
  manages.resolve_right fun exhausted => uncaused exhausted.2

end Manages

namespace FlowGraph

/-- Lists whose lengths have a bound in common make a list with that bound. -/
theorem length_flatMap_le {α β γ : Type} {list : List α} {lists : α → List β} {others : α → List γ}
    {bound : Nat} (each : ∀ element ∈ list,
      (lists element).length ≤ (others element).length * bound) :
    (list.flatMap lists).length ≤ (list.flatMap others).length * bound := by
  induction list with
  | nil => simp
  | cons head tail tailIH =>
    rw [List.flatMap_cons, List.flatMap_cons, List.length_append, List.length_append, Nat.add_mul]
    exact Nat.add_le_add (each head (List.mem_cons_self ..))
      (tailIH fun element member => each element (List.mem_cons_of_mem _ member))

/-- In single assignment merges name no more labels than there are pairs of an instruction and a
block. -/
theorem length_mergeLabels_le {graph : FlowGraph} (inSsa : Ssa.InSsa graph) :
    graph.mergeLabels.length ≤ graph.instrs.length * graph.blocks.length := by
  refine length_flatMap_le fun block member => ?_
  have fewPhis : block.phis.length ≤ block.instrs.length :=
    (List.takeWhile_sublist Instr.isPhi).length_le
  refine le_trans ?_ (Nat.mul_le_mul_right _ fewPhis)
  have each := @length_flatMap_le _ _ _ block.phis Instr.labels (fun phi => [phi])
    graph.blocks.length fun phi isPhi => ?_
  · rwa [List.flatMap_singleton'] at each
  rw [(inSsa.phi_labels block member phi isPhi).length_eq, List.length_singleton, Nat.one_mul,
    predecessorsOf, List.length_map]
  exact List.filter_sublist.length_le

end FlowGraph

namespace Ssa

/-- What a function became in single assignment. -/
structure Constructed (function : Func) (graph after : FlowGraph) : Prop where
  /-- Passes can be run on it. -/
  ready : Ready true after
  /-- It has the name of the function. -/
  name_eq : after.name = function.name
  /-- It has its parameters. -/
  params_eq : after.params = function.params
  /-- It does what the flow graph did. -/
  refines : ∀ machine, graph.Refines machine after
  /-- It is tame if the flow graph was. -/
  tame : graph.Tame → after.Tame
  /-- Blocks start with instructions of the function, but for two. -/
  length_blocks : after.blocks.length ≤ function.extent
  /-- There are a merge and an undefined value at most for a block and a write. -/
  length_instrs : after.instrs.length ≤ 5 * function.extent ^ 2
  /-- As many keys are taken. -/
  nextKey_le : after.nextKey ≤ function.maxKey + 5 * function.extent ^ 2

/-- A function without merges gets into single assignment. -/
theorem manages_construct {function : Func} {graph : FlowGraph} {log : Log}
    (built : FlowGraph.build function = .ok (graph, log))
    (unmerged : ∀ instr ∈ function.instrs, instr.isPhi = false) :
    Manages (¬function.LeavesKeys) (construct graph)
      fun result => Constructed function graph result.1 := by
  have isBuilt := FlowGraph.builtFrom_of_build built
  obtain ⟨wellFormed, noMerge⟩ := isBuilt.of_unmerged unmerged
  have fewKeys := isBuilt.nextKey_le
  have fewInstrs := isBuilt.length_instrs
  have extent_eq : function.extent = function.instrs.length + function.params.length + 3 := rfl
  obtain ⟨square, cube⟩ := function.three_mul_extent_le
  have fewBlocks : graph.blocks.length ≤ function.extent := isBuilt.length_blocks.trans (by omega)
  -- Blocks and writes are both linear in the extent of the function, so the demand for keys is
  -- quadratic.
  have demand : keyDemand graph ≤ 4 * function.extent ^ 2 := by
    have fewWrites : graph.params.length + graph.instrs.length ≤ 2 * function.extent := by
      rw [isBuilt.params_eq]
      omega
    calc keyDemand graph
        ≤ 2 * (function.extent * (2 * function.extent)) :=
          Nat.mul_le_mul_left 2 (Nat.mul_le_mul fewBlocks fewWrites)
      _ = 4 * function.extent ^ 2 := by ring
  rcases construct_cases wellFormed noMerge with
    ⟨after, events, done, blocks, keys, instrs⟩ | ⟨failed, exhausted⟩
  · obtain ⟨pruned, dominance, records, isPruned, converted⟩ :=
      converted_of_construct wellFormed noMerge done
    refine .inl ⟨(after, events), done, ⟨⟨converted.recoded.wellFormed isPruned.wellFormed,
      fun _ => converted.inSsa, fun _ => converted.recoded.reachable_of_mem isPruned.reachable⟩,
      ?_, ?_, refines_construct wellFormed noMerge done,
      fun tame => tame_construct wellFormed tame done, blocks.trans fewBlocks, ?_, ?_⟩⟩
    · rw [converted.name_eq, isPruned.name_eq, isBuilt.name_eq]
    · rw [converted.params_eq, isPruned.params_eq, isBuilt.params_eq]
    · dsimp only
      omega
    · dsimp only
      omega
  · refine .inr ⟨failed, fun room => ?_⟩
    rw [Func.LeavesKeys] at room
    omega

/-- What is done to a function in single assignment leaves it, if it is improved by it. -/
theorem manages_destruct {function : Func} {graph middle after : FlowGraph}
    (constructed : Constructed function graph middle) (improved : Improved middle after) :
    Manages (¬function.LeavesKeys) (destruct after) fun result => Destructed after result.1 ∧
      result.1.nextKey + result.1.blocks.length ≤ function.maxKey + 32 * function.extent ^ 3 := by
  have ready := constructed.ready.improved improved
  have inSsa := ready.inSsa rfl
  obtain ⟨square, cube⟩ := function.three_mul_extent_le
  have sameBlocks : after.blocks.length = middle.blocks.length := by
    have names := congrArg List.length improved.modest.names_eq
    rwa [FlowGraph.names, FlowGraph.names, List.length_map, List.length_map] at names
  have fewBlocks := constructed.length_blocks
  have fewKeys := constructed.nextKey_le
  rw [← improved.modest.nextKey_eq] at fewKeys
  have fewLabels : after.mergeLabels.length ≤ 5 * function.extent ^ 3 :=
    calc after.mergeLabels.length
        ≤ after.instrs.length * after.blocks.length := FlowGraph.length_mergeLabels_le inSsa
      _ ≤ (5 * function.extent ^ 2) * function.extent :=
          Nat.mul_le_mul (improved.modest.length_instrs.trans constructed.length_instrs)
            (sameBlocks ▸ fewBlocks)
      _ = 5 * function.extent ^ 3 := by ring
  rcases destruct_cases ready.wellFormed inSsa.phi_labels with
    ⟨last, events, done, destructed, few⟩ | ⟨failed, exhausted⟩
  · refine .inl ⟨(last, events), done, destructed, ?_⟩
    dsimp only
    omega
  · refine .inr ⟨failed, fun room => ?_⟩
    rw [Func.LeavesKeys] at room
    omega

/-! ## Results -/

/-- A function without merges gets into single assignment, in which it stays whatever passes are run
one after another, and from which it gets out again. -/
theorem construct_inSsa {function : Func} {graph : FlowGraph} {log : Log}
    (built : FlowGraph.build function = .ok (graph, log))
    (unmerged : ∀ instr ∈ function.instrs, instr.isPhi = false) :
    Manages (¬function.LeavesKeys) (construct graph) fun result => ∀ passes,
      InSsa (Pass.runAll passes result.1) ∧
        Manages (¬function.LeavesKeys) (destruct (Pass.runAll passes result.1)) fun _ => True := by
  rcases manages_construct built unmerged with ⟨result, done, constructed⟩ | exhausted
  · refine .inl ⟨result, done, fun passes => ?_⟩
    have allowed : ∀ pass ∈ passes, pass.Allowed true := fun _ _ _ => rfl
    have improved := Pass.improved_runAll constructed.ready allowed
    refine ⟨improved.inSsa (constructed.ready.inSsa rfl), ?_⟩
    exact (manages_destruct constructed improved).mono id fun _ _ => trivial
  · exact .inr exhausted

/-- A function that prints the first number that is not below a bound. -/
def countUp : Func where
  name := "count"
  params := [⟨"bound", .int⟩]
  returnType := none
  instrs := [.const "i" .int (.int 0), .const "one" .int (.int 1), .label "loop",
    .compute .add "i" .int ["i", "one"], .compute .lt "more" .bool ["i", "bound"],
    .br "more" "loop" "done", .label "done", .effect .print ["i"] [], .ret none]
  pos := none

/-- The function that counts gets into single assignment. -/
theorem construct_inSsa_countUp : ∃ graph log, FlowGraph.build countUp = .ok (graph, log) ∧
    ∃ result, construct graph = .ok result ∧ ∀ passes, InSsa (Pass.runAll passes result.1) ∧
      Manages (¬countUp.LeavesKeys) (destruct (Pass.runAll passes result.1)) fun _ => True :=
  ⟨_, _, rfl, (@construct_inSsa countUp _ _ rfl (by decide)).exists_answer
    (not_not.2 (by decide))⟩

/-- A function with the last key, in which a variable gets a value on one of two ways. -/
def lastKeyWrite : Func where
  name := "last"
  params := [⟨"again", .bool⟩]
  returnType := none
  instrs := [(Instr.label "a").withKey 18446744073709551614, .br "again" "b" "c", .label "b",
    .const "x" .int (.int 1), .jmp "c", .label "c", .ret none]
  pos := none

/-- Without keys a function does not get into single assignment. -/
theorem not_construct_inSsa : ∃ function graph log, FlowGraph.build function = .ok (graph, log) ∧
    (∀ instr ∈ function.instrs, instr.isPhi = false) ∧
      ¬∃ result, construct graph = .ok result := by
  refine ⟨lastKeyWrite, _, _, rfl, by decide, ?_⟩
  rintro ⟨result, done⟩
  cases Eq.trans done.symm rfl

/-- Brought into single assignment and written out, a function without merges yields what it yielded
before. -/
theorem construct_preserves {function : Func} {graph : FlowGraph} {log : Log}
    (built : FlowGraph.build function = .ok (graph, log))
    (unmerged : ∀ instr ∈ function.instrs, instr.isPhi = false) :
    Manages (¬function.LeavesKeys) (do
      let (after, _) ← construct graph
      after.flatten) fun output => ∀ machine, function.Refines machine output := by
  have isBuilt := FlowGraph.builtFrom_of_build built
  refine (manages_construct built unmerged).bind fun result constructed => ?_
  obtain ⟨square, cube⟩ := function.three_mul_extent_le
  rcases result.1.flatten_cases with ⟨output, isOutput⟩ | ⟨failed, exhausted⟩
  · refine .inl ⟨output, isOutput, fun machine calls args answer yields => ?_⟩
    rw [FlowGraph.yields_flatten_iff constructed.ready.wellFormed isOutput]
    exact constructed.refines machine calls args answer (isBuilt.yields unmerged yields)
  · refine .inr ⟨failed, fun room => ?_⟩
    rw [Func.LeavesKeys] at room
    have fewBlocks := constructed.length_blocks
    have fewKeys := constructed.nextKey_le
    omega

/-- The function that counts keeps what it yields. -/
theorem construct_preserves_countUp : ∃ graph log, FlowGraph.build countUp = .ok (graph, log) ∧
    ∃ output, (do
      let (after, _) ← construct graph
      after.flatten) = .ok output ∧ ∀ machine, countUp.Refines machine output :=
  ⟨_, _, rfl, (@construct_preserves countUp _ _ rfl (by decide)).exists_answer
    (not_not.2 (by decide))⟩

/-- A function that yields an answer has no code in single assignment if it leaves no keys. -/
theorem not_construct_preserves : ∃ function graph log,
    FlowGraph.build function = .ok (graph, log) ∧
    (∀ instr ∈ function.instrs, instr.isPhi = false) ∧
    function.Yields .withoutFloats (fun _ _ => none) [.bool true] ⟨[], none⟩ ∧
      ¬∃ output, (do
        let (after, _) ← construct graph
        after.flatten) = .ok output := by
  refine ⟨lastKeyWrite, _, _, rfl, by decide, ⟨10, rfl⟩, ?_⟩
  rintro ⟨output, done⟩
  cases Eq.trans done.symm rfl

end Ssa

end Midend
