import Midend.FlowGraph.Basic
import Midend.Proofs.Sorted

/-! # Fresh names are fresh

The search for a free number needs no more tries than there are taken names (`firstFree_spec`), so a
supply never gives out a taken name (`NameSupply.fresh_spec`). -/

namespace Midend

/-! ## Numbered names -/

/-- Different numbers make different names. -/
theorem numbered_injective (stem separator : String) :
    Function.Injective (numbered stem separator) := by
  intro left right same
  have digits : Nat.repr left = Nat.repr right := (String.append_right_inj _).1 same
  have lists := congrArg String.toList digits
  rw [Nat.toList_repr, Nat.toList_repr] at lists
  have values := congrArg (Nat.ofDigitChars 10 · 0) lists
  simpa using values

/-- A numbered name with a separator is not empty. -/
theorem numbered_ne_empty (stem : String) {separator : String} (visible : separator ≠ "")
    (number : Nat) : numbered stem separator number ≠ "" := by
  intro empty
  rw [numbered, String.append_eq_empty_iff, String.append_eq_empty_iff] at empty
  exact visible empty.1.2

/-! ## Searching a free number -/

/-- The search goes up from where it starts. -/
theorem le_firstFree (candidate : Nat → String) (taken : String → Bool) (tries counter : Nat) :
    counter ≤ firstFree candidate taken tries counter := by
  induction tries generalizing counter with
  | zero => exact Nat.le_refl _
  | succ tries triesIH =>
    rw [firstFree]
    split
    · have further := triesIH (counter + 1)
      omega
    · exact Nat.le_refl _

/-- The search finds a name that is not taken, if there are no more taken names than tries: every
failed try rules out one of them. -/
theorem firstFree_spec {candidate : Nat → String} (distinct : Function.Injective candidate)
    (taken : String → Bool) (names : List String) {tries : Nat} (counter : Nat)
    (listed : ∀ number, counter ≤ number → taken (candidate number) = true →
      candidate number ∈ names) (enough : names.length ≤ tries) :
    taken (candidate (firstFree candidate taken tries counter)) = false := by
  induction tries generalizing counter names with
  | zero =>
    have empty : names = [] := List.eq_nil_of_length_eq_zero (by omega)
    rw [firstFree, ← Bool.not_eq_true]
    intro isTaken
    have member := listed counter (Nat.le_refl _) isTaken
    rw [empty] at member
    cases member
  | succ tries triesIH =>
    rw [firstFree]
    split
    · rename_i isTaken
      have member := listed counter (Nat.le_refl _) isTaken
      have length := List.length_erase_of_mem member
      have positive := List.length_pos_of_mem member
      refine triesIH (names.erase (candidate counter)) (counter + 1) ?_ (by omega)
      intro number above numberTaken
      have apart : candidate number ≠ candidate counter := fun same => by
        have := distinct same
        omega
      exact (List.mem_erase_of_ne apart).2 (listed number (by omega) numberTaken)
    · rename_i isFree
      simpa using isFree

/-! ## The supply -/

namespace NameSupply

/-- A fresh name is a numbered stem that was not taken and is taken afterwards. -/
theorem fresh_spec (supply : NameSupply) (stem : String) :
    (∃ number, (supply.fresh stem).1 = numbered stem "." number) ∧
      (supply.fresh stem).1 ∉ supply.taken ∧
      ∀ name, name ∈ (supply.fresh stem).2.taken ↔
        name = (supply.fresh stem).1 ∨ name ∈ supply.taken := by
  have free := firstFree_spec (numbered_injective stem ".") supply.taken.contains
    supply.taken.toList (supply.counters.getD stem 0)
    (fun number _ isTaken => SortedSet.mem_toList.2 (SortedSet.contains_iff.1 isTaken))
    (Nat.le_refl supply.taken.size)
  refine ⟨⟨_, rfl⟩, ?_, fun name => ?_⟩
  · intro member
    exact Bool.false_ne_true (free.symm.trans (SortedSet.contains_iff.2 member))
  · exact SortedSet.mem_insert

section Taken

variable {graph : FlowGraph} {block : Block} {instr : Instr}

/-- Parameters are taken. -/
theorem taken_of_param {name : String} (isParam : name ∈ graph.paramNames) :
    name ∈ (ofGraph graph).taken := SortedSet.mem_ofList.2 (List.mem_append_left _ isParam)

/-- What an instruction reads is taken. -/
theorem taken_of_arg (member : block ∈ graph.blocks) (inside : instr ∈ block.instrs) {arg : String}
    (isArg : arg ∈ instr.args) : arg ∈ (ofGraph graph).taken :=
  SortedSet.mem_ofList.2 (List.mem_append_right _ (List.mem_flatMap.2
    ⟨instr, List.mem_flatMap.2 ⟨block, member, inside⟩, List.mem_append_right _ isArg⟩))

/-- What an instruction writes is taken. -/
theorem taken_of_dest (member : block ∈ graph.blocks) (inside : instr ∈ block.instrs)
    {dest : String} (isDest : instr.dest? = some dest) : dest ∈ (ofGraph graph).taken :=
  SortedSet.mem_ofList.2 (List.mem_append_right _ (List.mem_flatMap.2
    ⟨instr, List.mem_flatMap.2 ⟨block, member, inside⟩,
      List.mem_append_left _ (by simp [isDest])⟩))

end Taken

/-- Names that a supply gave out one after another: none was taken before, all are taken afterwards,
and each is a numbered stem of the given kind. -/
structure Supplied (stems : String → Prop) (before : NameSupply) (names : List String)
    (after : NameSupply) : Prop where
  /-- The names are distinct. -/
  nodup : names.Nodup
  /-- They were not taken. -/
  notMem : ∀ name ∈ names, name ∉ before.taken
  /-- They are taken. -/
  mem_iff : ∀ name, name ∈ after.taken ↔ name ∈ before.taken ∨ name ∈ names
  /-- They are numbered stems. -/
  stem : ∀ name ∈ names, ∃ stem number, stems stem ∧ name = numbered stem "." number

namespace Supplied

variable {stems : String → Prop}

/-- No name was given out. -/
theorem nil (supply : NameSupply) : Supplied stems supply [] supply :=
  ⟨List.nodup_nil, by simp, by simp, by simp⟩

/-- One name was given out. -/
theorem one (supply : NameSupply) {stem : String} (isStem : stems stem) :
    Supplied stems supply [(supply.fresh stem).1] (supply.fresh stem).2 := by
  obtain ⟨⟨number, isNumbered⟩, notMem, mem_iff⟩ := supply.fresh_spec stem
  refine ⟨List.nodup_singleton _, ?_, fun name => ?_, ?_⟩
  · rintro name (_ | ⟨_, ⟨⟩⟩)
    exact notMem
  · rw [mem_iff, List.mem_singleton, or_comm]
  · rintro name (_ | ⟨_, ⟨⟩⟩)
    exact ⟨stem, number, isStem, isNumbered⟩

/-- Names were given out in two parts. -/
theorem append {before middle after : NameSupply} {left right : List String}
    (first : Supplied stems before left middle) (second : Supplied stems middle right after) :
    Supplied stems before (left ++ right) after := by
  refine ⟨List.nodup_append.2 ⟨first.nodup, second.nodup, ?_⟩, ?_, fun name => ?_, ?_⟩
  · rintro name inLeft _ inRight rfl
    exact second.notMem name inRight ((first.mem_iff name).2 (.inr inLeft))
  · intro name member
    rcases List.mem_append.1 member with inLeft | inRight
    · exact first.notMem name inLeft
    · exact fun isTaken => second.notMem name inRight ((first.mem_iff name).2 (.inl isTaken))
  · rw [second.mem_iff, first.mem_iff, List.mem_append, or_assoc]
  · intro name member
    rcases List.mem_append.1 member with inLeft | inRight
    · exact first.stem name inLeft
    · exact second.stem name inRight

/-- What was taken stays so. -/
theorem mono {before after : NameSupply} {names : List String}
    (supplied : Supplied stems before names after) {name : String} (isTaken : name ∈ before.taken) :
    name ∈ after.taken := (supplied.mem_iff name).2 (.inl isTaken)

end Supplied

end NameSupply

end Midend
