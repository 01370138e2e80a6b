import Midend.Proofs.FlowGraph.Flatten
import Midend.Proofs.Pass
import Midend.Proofs.Ssa.RoundTrip

/-! # Passes on code that is written out

A pass takes no keys, so what it leaves can be written out whenever what it got could be, and then
yields whatever that yielded (`Improved.exists_flatten`). For the two numberings this is stated with
nothing else assumed than what each of them needs: global numbering needs single assignment
(`Pass.globalNumbering_preserves`), local numbering does not (`Pass.localNumbering_preserves`).

Both compare values by their numbers, and a number is not equal to itself if it is not a number at
all, so runs that compare floating-point numbers are left out: the machine refuses them. -/

namespace Midend

namespace FlowGraph

/-- Writing out blocks takes a key for each. -/
theorem lt_of_flattenBlocks {graph : FlowGraph} {block : Block} {blocks : List Block}
    {instrs : List Instr} (flat : graph.flattenBlocks (block :: blocks) = .ok instrs) :
    graph.nextKey + (block :: blocks).length < keyLimit := by
  induction blocks generalizing graph block instrs with
  | nil =>
    rcases graph.freshKey_cases with given | ⟨failed, _⟩
    · unfold freshKey at given
      split at given
      · rename_i room
        exact room
      · cases given
    · rw [flattenBlocks, failed] at flat
      cases flat
  | cons next rest restIH =>
    obtain ⟨⟨key, keyed⟩, isKey, flat⟩ := Attempt.bind_eq_ok.1 flat
    obtain ⟨others, flatRest, _⟩ := Attempt.bind_eq_ok.1 flat
    obtain ⟨-, rfl⟩ := freshKey_eq_ok isKey
    have room := restIH flatRest
    simp only [List.length_cons] at room ⊢
    omega

/-- A flow graph can be written out if one can with as many blocks and the same next key: the same
number of keys is asked for, from the same key on. -/
theorem exists_flatten {graph after : FlowGraph} (nonempty : graph.blocks ≠ [])
    (sameBlocks : after.blocks.length = graph.blocks.length)
    (sameKey : after.nextKey = graph.nextKey) {input : Func} (isInput : graph.flatten = .ok input) :
    ∃ output, after.flatten = .ok output := by
  have room : after.nextKey + after.blocks.length < keyLimit := by
    obtain ⟨instrs, flat, _⟩ := Attempt.bind_eq_ok.1 isInput
    obtain ⟨first, rest, isCons⟩ := List.exists_cons_of_ne_nil nonempty
    rw [isCons] at flat
    rw [sameKey, sameBlocks, isCons]
    exact lt_of_flattenBlocks flat
  rcases after.flatten_cases with written | ⟨_, many⟩
  · exact written
  · omega

end FlowGraph

/-- What a pass leaves can be written out if what it got could be, and yields as much. -/
theorem Improved.exists_flatten {graph after : FlowGraph} (improved : Improved graph after)
    (wellFormed : graph.WellFormed) {input : Func} (isInput : graph.flatten = .ok input) :
    ∃ output, after.flatten = .ok output ∧ ∀ floats compares calls args answer,
      input.Yields ⟨floats, false⟩ calls args answer →
        output.Yields ⟨floats, compares⟩ calls args answer := by
  have formed := improved.recoded.wellFormed wellFormed
  have sameBlocks := congrArg List.length improved.modest.names_eq
  rw [FlowGraph.names, FlowGraph.names, List.length_map, List.length_map] at sameBlocks
  obtain ⟨output, isOutput⟩ :=
    FlowGraph.exists_flatten wellFormed.nonempty sameBlocks improved.modest.nextKey_eq isInput
  refine ⟨output, isOutput, fun floats compares calls args answer yields => ?_⟩
  rw [FlowGraph.yields_flatten_iff wellFormed isInput] at yields
  have kept := improved.refines floats calls args answer yields
  rw [← FlowGraph.yields_flatten_iff formed isOutput] at kept
  cases compares with
  | false => exact kept
  | true =>
    obtain ⟨fuel, ran⟩ := kept
    have same : (Machine.mk floats true).floats = (Machine.mk floats false).floats := rfl
    exact ⟨fuel, Func.call_mono same (fun _ _ _ => Machine.apply_of_refusing)
      (fun _ _ _ found => found) (Nat.le_refl _) ran⟩

namespace Pass

/-- Global numbering of a flow graph in single assignment succeeds, and what it leaves yields, written
out, whatever it yielded before, as long as no floating-point numbers are compared. -/
theorem globalNumbering_preserves {graph : FlowGraph} (wellFormed : graph.WellFormed)
    (inSsa : Ssa.InSsa graph) (reachable : ∀ block ∈ graph.blocks, graph.Reachable block.name) :
    (∃ changed, (globalNumbering.run graph).result = .ok changed) ∧
      ∀ input, graph.flatten = .ok input →
        ∃ output, (globalNumbering.run graph).graph.flatten = .ok output ∧
          ∀ floats compares calls args answer, input.Yields ⟨floats, false⟩ calls args answer →
            output.Yields ⟨floats, compares⟩ calls args answer := by
  have ready : Ready true graph := ⟨wellFormed, fun _ => inSsa, fun _ => reachable⟩
  obtain ⟨improved, succeeds⟩ := run_spec ready fun _ => rfl
  refine ⟨succeeds nofun, fun input isInput => ?_⟩
  exact improved.exists_flatten wellFormed isInput

/-- The function that counts, in single assignment and numbered, still counts. -/
theorem globalNumbering_preserves_countUp : ∃ graph log result input,
    FlowGraph.build Ssa.countUp = .ok (graph, log) ∧ Ssa.construct graph = .ok result ∧
    result.1.flatten = .ok input ∧ ∃ output,
      (globalNumbering.run result.1).graph.flatten = .ok output ∧
      output.Yields ⟨Machine.withoutFloats.floats, true⟩ (fun _ _ => none) [.int 3]
        ⟨["3"], none⟩ := by
  obtain ⟨result, done, constructed⟩ := (@Ssa.manages_construct Ssa.countUp _ _ rfl
    (by decide)).exists_answer (not_not.2 (by decide))
  have ready := constructed.ready
  obtain ⟨-, preserves⟩ := globalNumbering_preserves ready.wellFormed (ready.inSsa rfl)
    (ready.reachable rfl)
  rcases result.1.flatten_cases with ⟨input, isInput⟩ | ⟨_, many⟩
  · have counts := constructed.refines _ _ _ _ ((FlowGraph.builtFrom_of_build rfl).yields (by decide)
      (⟨30, rfl⟩ : Ssa.countUp.Yields .withoutFloats (fun _ _ => none) [.int 3] ⟨["3"], none⟩))
    rw [← FlowGraph.yields_flatten_iff ready.wellFormed isInput] at counts
    obtain ⟨output, isOutput, keeps⟩ := preserves input isInput
    exact ⟨_, _, result, input, rfl, done, isInput, output, isOutput, keeps _ _ _ _ _ counts⟩
  · have fewBlocks := constructed.length_blocks
    have fewKeys := constructed.nextKey_le
    have room : Ssa.countUp.maxKey + 5 * Ssa.countUp.extent ^ 2 + Ssa.countUp.extent < keyLimit := by
      decide
    omega

/-- Local numbering of the flow graph of any function in which merges come first leaves what yields,
written out, whatever it yielded before, as long as no floating-point numbers are compared. -/
theorem localNumbering_preserves {function : Func} {graph : FlowGraph} {log : Log}
    (built : FlowGraph.build function = .ok (graph, log))
    (leading : ∀ block ∈ graph.blocks, ∀ instr ∈ block.body, instr.isPhi = false) :
    ∀ input, graph.flatten = .ok input →
      ∃ output, (localNumbering.run graph).graph.flatten = .ok output ∧
        ∀ floats compares calls args answer, input.Yields ⟨floats, false⟩ calls args answer →
          output.Yields ⟨floats, compares⟩ calls args answer := by
  have wellFormed := (FlowGraph.builtFrom_of_build built).wellFormed leading
  have ready : Ready false graph := ⟨wellFormed, nofun, nofun⟩
  have allowed : localNumbering.Allowed false := nofun
  have improved := (run_spec ready allowed).1
  exact fun input isInput => improved.exists_flatten wellFormed isInput

/-- A function that computes one sum twice, and writes over what it was computed from and over where
it was put. -/
def writesOver : Func where
  name := "over"
  params := [⟨"a", .int⟩, ⟨"b", .int⟩]
  returnType := some .int
  instrs := [.compute .add "x" .int ["a", "b"], .compute .add "y" .int ["b", "a"],
    .compute .id "a" .int ["x"], .const "x" .int (.int 0), .compute .add "x" .int ["x", "y"],
    .effect .print ["a", "x"] [], .ret (some "y")]
  pos := none

/-- The function that writes over its variables is numbered and yields the same. -/
theorem localNumbering_preserves_writesOver : ∃ graph log input output,
    FlowGraph.build writesOver = .ok (graph, log) ∧ graph.flatten = .ok input ∧
    (localNumbering.run graph).graph.flatten = .ok output ∧
      output.Yields ⟨Machine.withoutFloats.floats, true⟩ (fun _ _ => none) [.int 3, .int 4]
        ⟨["7 7"], some (.int 7)⟩ := by
  obtain ⟨output, isOutput, keeps⟩ := @localNumbering_preserves writesOver _ _ rfl (by decide) _ rfl
  exact ⟨_, _, _, output, rfl, rfl, isOutput, keeps _ _ _ _ _ ⟨20, rfl⟩⟩

end Pass

end Midend
