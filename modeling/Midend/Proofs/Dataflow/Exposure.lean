import Midend.Proofs.Dataflow.Liveness

/-! # Reads that come first

What is live at the start of a block can be told in two ways: by stepping back through its
instructions, or as what the block reads first, together with what is live at its end and not written
in it. The scan for what a block reads first leaves merges out, and what they write too
(`Liveness.mem_upwardExposed`). Therefore the two ways differ in the variables that are read only
after a merge wrote them, and in no others (`Liveness.mem_transfer_iff`). -/

namespace Midend

namespace Liveness

variable {instr : Instr} {instrs rest : List Instr} {block : Block} {var : String}

/-! ## The forward scan -/

/-- The instructions that are no merges. -/
def withoutMerges (instrs : List Instr) : List Instr := instrs.filter fun instr => !instr.isPhi

@[simp] theorem withoutMerges_nil : withoutMerges [] = [] := rfl

/-- A merge is left out, other instructions stay. -/
theorem withoutMerges_cons : withoutMerges (instr :: rest) =
    if instr.isPhi then withoutMerges rest else instr :: withoutMerges rest := by
  rw [withoutMerges, List.filter_cons]
  cases instr.isPhi <;> rfl

/-- The scan adds to what was read what instructions that are no merges expose and what was not
written before. -/
theorem mem_upwardExposedFrom {written read : SortedSet String} :
    var ∈ upwardExposedFrom written read instrs ↔
      var ∈ read ∨ (var ∉ written ∧ Exposes (withoutMerges instrs) var) := by
  induction instrs generalizing written read with
  | nil => simp [upwardExposedFrom, not_exposes_nil]
  | cons instr rest restIH =>
    rw [upwardExposedFrom, withoutMerges_cons]
    cases isPhi : instr.isPhi with
    | true => exact restIH
    | false =>
      simp only [Bool.false_eq_true, if_false, restIH, SortedSet.mem_insertAll, List.mem_filter,
        Option.mem_toList, exposes_cons, isPhi, true_and, Bool.not_eq_true', SortedSet.contains,
        decide_eq_false_iff_not, ne_eq]
      tauto

/-- What a block reads before it writes it, merges left out. -/
theorem mem_upwardExposed :
    var ∈ upwardExposed block ↔ Exposes (withoutMerges block.instrs) var := by
  simp [upwardExposed, mem_upwardExposedFrom]

/-! ## Merges that write first -/

/-- The first instruction that writes a variable or, being no merge, reads it is a merge. -/
def MergedFirst (instrs : List Instr) (var : String) : Prop :=
  ∃ front phi rest, instrs = front ++ phi :: rest ∧ phi.isPhi = true ∧ phi.dest? = some var ∧
    ∀ other ∈ front, other.dest? ≠ some var ∧ (other.isPhi = false → var ∉ other.args)

/-- A merge that writes a variable comes first, or the first instruction has nothing to do with the
variable. -/
theorem mergedFirst_cons : MergedFirst (instr :: rest) var ↔
    (instr.isPhi = true ∧ instr.dest? = some var) ∨
      (instr.dest? ≠ some var ∧ (instr.isPhi = false → var ∉ instr.args) ∧
        MergedFirst rest var) := by
  constructor
  · rintro ⟨front, phi, later, split, isPhi, writes, apart⟩
    cases front with
    | nil =>
      obtain ⟨rfl, _⟩ := List.cons.inj split
      exact .inl ⟨isPhi, writes⟩
    | cons first front =>
      obtain ⟨rfl, isRest⟩ := List.cons.inj split
      rw [List.forall_mem_cons] at apart
      exact .inr ⟨apart.1.1, apart.1.2, front, phi, later, isRest, isPhi, writes, apart.2⟩
  · rintro (⟨isPhi, writes⟩ | ⟨unwritten, unread, front, phi, later, rfl, isPhi, writes, apart⟩)
    · exact ⟨[], instr, rest, rfl, isPhi, writes, nofun⟩
    · exact ⟨instr :: front, phi, later, rfl, isPhi, writes,
        List.forall_mem_cons.2 ⟨⟨unwritten, unread⟩, apart⟩⟩

/-- Instructions expose what they expose without their merges, unless a merge writes it first. -/
theorem exposes_iff : Exposes instrs var ↔
    Exposes (withoutMerges instrs) var ∧ ¬MergedFirst instrs var := by
  induction instrs with
  | nil => simp [not_exposes_nil]
  | cons instr rest restIH =>
    rw [withoutMerges_cons, exposes_cons, mergedFirst_cons, restIH]
    cases isPhi : instr.isPhi with
    | true =>
      -- The scan passes over the merge, so only what comes first can tell that it writes.
      simp only [Bool.true_eq_false, false_and, false_or, if_true, true_and, false_implies]
      tauto
    | false =>
      simp only [Bool.false_eq_true, if_false, exposes_cons, isPhi, true_and, false_and, false_or,
        true_implies]
      tauto

/-- What a merge writes first is written. -/
theorem MergedFirst.mem_defs (merged : MergedFirst block.instrs var) : var ∈ block.defs := by
  obtain ⟨front, phi, rest, split, _, writes, _⟩ := merged
  rw [Block.defs, split]
  exact List.mem_filterMap.2 ⟨phi, by simp, writes⟩

/-! ## Two ways to step back through a block -/

/-- What a block reads first, together with what is live at its end and not written in it. -/
def fromExposed (block : Block) (out : SortedSet String) : SortedSet String :=
  (upwardExposed block).union (out.filter fun var => var ∉ block.defs)

/-- The members of the union. -/
theorem mem_fromExposed {out : SortedSet String} : var ∈ fromExposed block out ↔
    Exposes (withoutMerges block.instrs) var ∨ (var ∉ block.defs ∧ var ∈ out) := by
  simp [fromExposed, mem_upwardExposed, and_comm]

/-- Stepping back gives what is read first or live at the end, without what a merge writes before it
is read. -/
theorem mem_transfer_iff {out : SortedSet String} : var ∈ analysis.transfer block out ↔
    var ∈ fromExposed block out ∧ ¬(var ∈ upwardExposed block ∧ MergedFirst block.instrs var) := by
  have written : MergedFirst block.instrs var → var ∈ block.defs := MergedFirst.mem_defs
  have stepped : var ∈ analysis.transfer block out ↔
      Exposes block.instrs var ∨ (var ∉ block.defs ∧ var ∈ out) := mem_stepBackAll_iff
  rw [stepped, mem_fromExposed, mem_upwardExposed, exposes_iff]
  -- What a merge writes first does not get through the block from its end either.
  tauto

/-- Stepping back through a block gives what it reads first, together with what is live at its end and
not written in it, without the variables that a merge writes before anything reads them. The two ways
agree for the blocks that expose no such variable. Stepping back over the first instruction alone,
from what is live behind it, gives the same as stepping back through the block. -/
theorem transfer_fromExposed (block : Block) (out : SortedSet String) :
    (∀ var, var ∈ analysis.transfer block out ↔
      var ∈ fromExposed block out ∧
        ¬(var ∈ upwardExposed block ∧ MergedFirst block.instrs var)) ∧
    (analysis.transfer block out = fromExposed block out ↔
      ∀ var ∈ upwardExposed block, ¬MergedFirst block.instrs var) ∧
    ∀ instr rest, block.instrs = instr :: rest →
      ∃ live later, afterEach block.instrs out = live :: later ∧
        stepBack instr live = analysis.transfer block out := by
  refine ⟨fun var => mem_transfer_iff, ⟨fun same var exposed merged => ?_, fun unmerged => ?_⟩,
    fun instr rest split => ?_⟩
  · have either : var ∈ fromExposed block out := mem_fromExposed.2 (.inl (mem_upwardExposed.1 exposed))
    rw [← same] at either
    exact (mem_transfer_iff.1 either).2 ⟨exposed, merged⟩
  · ext var
    exact mem_transfer_iff.trans (and_iff_left fun both => unmerged var both.1 both.2)
  · rw [split]
    refine ⟨stepBackAll rest out, afterEach rest out, rfl, ?_⟩
    show stepBackAll (instr :: rest) out = stepBackAll block.instrs out
    rw [split]

/-- A block with a merge that nothing in it reads; it reads a variable and then writes it. -/
def readsThenWrites : Block where
  name := "again"
  instrs := [.phi "step" .int ["one"] ["start"], .compute .add "sum" .int ["total", "total"],
    .const "total" .int (.int 1), .effect .print ["sum"] [], .ret none]

/-- In this block the two ways agree, and so does the step back over its merge. -/
theorem transfer_fromExposed_readsThenWrites :
    analysis.transfer readsThenWrites (.ofList ["step", "total"]) =
      fromExposed readsThenWrites (.ofList ["step", "total"]) ∧
    ∃ live later, afterEach readsThenWrites.instrs (.ofList ["step", "total"]) = live :: later ∧
      stepBack (.phi "step" .int ["one"] ["start"]) live =
        analysis.transfer readsThenWrites (.ofList ["step", "total"]) := by
  obtain ⟨_, agree, stepped⟩ := transfer_fromExposed readsThenWrites (.ofList ["step", "total"])
  refine ⟨agree.2 fun var exposed => ?_, stepped _ _ rfl⟩
  obtain rfl : var = "total" := List.mem_singleton.1 exposed
  -- The sum reads the variable, and only the merge stands before it.
  have reads : Exposes readsThenWrites.instrs "total" :=
    ⟨[.phi "step" .int ["one"] ["start"]], .compute .add "sum" .int ["total", "total"], _, rfl, rfl,
      by decide, by decide⟩
  exact (exposes_iff.1 reads).2

/-- A block that reads what its merge writes. -/
def readsMerge : Block where
  name := "join"
  instrs := [.phi "next" .int ["one"] ["start"], .effect .print ["next"] [], .ret none]

/-- In this block the two ways differ. -/
theorem not_transfer_fromExposed :
    analysis.transfer readsMerge .empty ≠ fromExposed readsMerge .empty := by
  decide

end Liveness

end Midend
