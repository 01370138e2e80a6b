import Midend.Proofs.Sorted
import Midend.Proofs.Typing.Edits
import Midend.Ssa.Destruct

/-! # Disciplines on the way out of single assignment

A copy has the type of the merge that it stands for, and a temporary that of the target that it
saves. So every instruction may stand in some code afterwards (`Ssa.admitted_destruct`). That all
of them may stand in the same code is not said: a temporary is named without regard to merges that
nothing else reads. -/

namespace Midend

namespace Ssa

variable {discipline : Discipline} {kinds : Kinds}

/-- Copies of allowed types are put in order. -/
theorem admitted_sequentializeFrom (budget : Nat) {copies : List Copy}
    (allowed : ∀ copy ∈ copies, discipline.types copy.ty) (names : NameSupply) :
    ∀ instr ∈ (sequentializeFrom budget copies names).1, instr.Admitted discipline := by
  have copies_alone : ∀ dest source ty, discipline.types ty →
      (Instr.copy dest ty source).Admitted discipline := fun dest source ty isType =>
    ⟨⟨nofun, isType, nofun⟩, nofun, (by decide : 0 < keyLimit)⟩
  induction budget generalizing copies names with
  | zero => exact nofun
  | succ budget budgetIH =>
    cases copies with
    | nil => exact nofun
    | cons first rest =>
      rw [sequentializeFrom]
      dsimp only
      split
      · rename_i place _
        have isPending : (first :: rest).getD place first ∈ first :: rest := by
          rw [List.getD_eq_getElem?_getD]
          cases found : (first :: rest)[place]? with
          | none => exact List.mem_cons_self ..
          | some copy => exact List.mem_of_getElem? found
        refine List.forall_mem_cons.2 ⟨copies_alone _ _ _ (allowed _ isPending),
          budgetIH (fun copy member => allowed copy (List.mem_of_mem_eraseIdx member)) names⟩
      · refine List.forall_mem_cons.2 ⟨copies_alone _ _ _ (allowed first (List.mem_cons_self ..)),
          budgetIH (fun copy member => ?_) _⟩
        obtain ⟨old, isOld, rfl⟩ := List.mem_map.1 member
        split
        · exact allowed old isOld
        · exact allowed old isOld

/-- Copies of allowed types are made in each block. -/
theorem admitted_insertCopies {graph after : FlowGraph} {names : NameSupply}
    {list : List (String × List Copy)} (admitted : graph.Admitted discipline)
    (allowed : ∀ entry ∈ list, ∀ copy ∈ entry.2, discipline.types copy.ty)
    (inserted : insertCopies graph names list = .ok after) : after.Admitted discipline := by
  induction list generalizing graph names with
  | nil =>
    obtain rfl := Except.ok.inj inserted
    exact admitted
  | cons entry rest restIH =>
    obtain ⟨name, copies⟩ := entry
    rw [List.forall_mem_cons] at allowed
    rw [insertCopies] at inserted
    obtain ⟨⟨keyed, middle⟩, areKeyed, inserted⟩ := Attempt.bind_eq_ok.1 inserted
    obtain ⟨_, _, inserted⟩ := Attempt.bind_eq_ok.1 inserted
    obtain ⟨new, nextKey, rfl⟩ := FlowGraph.forall_freshKeys
      (fun instr _ low (admitted : instr.Admitted discipline) =>
        ⟨admitted.action, admitted.pos, low⟩)
      (admitted_sequentializeFrom _ (fun copy member =>
        allowed.1 copy (List.mem_filter.1 member).1) names) areKeyed
    have middleAdmitted : FlowGraph.Admitted discipline
        (({ graph with nextKey } : FlowGraph).modifyBlock name fun block =>
          block.insertAt block.insertionPoint keyed) := by
      refine ⟨admitted.params, FlowGraph.forall_instrs_map name
        (fun block => block.insertAt block.insertionPoint keyed) admitted.instrs
        fun block member _ => Block.forall_insertAt (fun instr inside => ?_) new _⟩
      exact admitted.instrs instr (List.mem_flatMap.2 ⟨block, member, inside⟩)
    exact restIH middleAdmitted allowed.2 inserted

/-- Edges are split one after another. -/
theorem conforms_splitEdges {graph after : FlowGraph} {log : Log} {edges : List (String × String)}
    (conforms : graph.Conforms discipline kinds)
    (split : splitEdges graph edges = .ok (after, log)) : after.Conforms discipline kinds := by
  induction edges generalizing graph log with
  | nil =>
    obtain ⟨rfl, _⟩ := Prod.mk.inj (Except.ok.inj split)
    exact conforms
  | cons edge rest restIH =>
    obtain ⟨source, target⟩ := edge
    rw [splitEdges] at split
    obtain ⟨⟨name, middle⟩, isSplit, split⟩ := Attempt.bind_eq_ok.1 split
    obtain ⟨⟨last, more⟩, others, isAfter⟩ := Attempt.bind_eq_ok.1 split
    obtain ⟨rfl, _⟩ := Prod.mk.inj (Except.ok.inj isAfter)
    exact restIH (conforms.splitEdge isSplit) others

/-- Copies have the types of their merges. -/
theorem types_of_copies {graph : FlowGraph} (conforms : graph.Conforms discipline kinds) :
    ∀ entry ∈ (copiesByBlock graph).toList, ∀ copy ∈ entry.2, discipline.types copy.ty := by
  intro entry member copy inside
  have grouped : (copiesByBlock graph).getD entry.1 [] =
      ((graph.blocks.flatMap copiesOf).filter fun pair => pair.1 = entry.1).map Prod.snd := by
    rw [copiesByBlock, SortedMap.getD_group]
    rfl
  rw [SortedMap.getD, SortedMap.get?_eq_some_iff.2 member, Option.getD_some] at grouped
  rw [grouped] at inside
  obtain ⟨pair, isPair, rfl⟩ := List.mem_map.1 inside
  obtain ⟨block, isBlock, isCopy⟩ := List.mem_flatMap.1 (List.mem_filter.1 isPair).1
  obtain ⟨phi, isPhi, isCopy⟩ := List.mem_flatMap.1 isCopy
  split at isCopy
  · rename_i dest ty isDest isTy
    obtain ⟨_, _, rfl⟩ := List.mem_map.1 isCopy
    exact ((conforms.of_mem isBlock phi (Block.mem_of_mem_phis isPhi)).action.written isDest isTy).1
  · cases isCopy

/-- After the way out of single assignment every instruction may stand in some code. -/
theorem admitted_destruct {graph after : FlowGraph} {log : Log}
    (orderly : graph.Orderly discipline) (done : destruct graph = .ok (after, log)) :
    after.Admitted discipline := by
  obtain ⟨kinds, conforms⟩ := orderly
  obtain ⟨edges, _, done⟩ := Attempt.bind_eq_ok.1 done
  obtain ⟨⟨split, splits⟩, isSplit, done⟩ := Attempt.bind_eq_ok.1 done
  obtain ⟨lowered, inserted, done⟩ := Attempt.bind_eq_ok.1 done
  obtain ⟨rfl, _⟩ := Prod.mk.inj (Except.ok.inj done)
  have splitConforms := conforms_splitEdges conforms isSplit
  refine admitted_insertCopies ?_ (types_of_copies splitConforms) inserted
  refine FlowGraph.Orderly.admitted ⟨kinds, splitConforms.of_instrs rfl fun instr member => ?_⟩
  obtain ⟨image, isImage, inside⟩ := List.mem_flatMap.1 member
  obtain ⟨block, isBlock, rfl⟩ := List.mem_map.1 isImage
  exact splitConforms.of_mem isBlock instr (Block.mem_of_mem_body inside)

end Ssa

end Midend
