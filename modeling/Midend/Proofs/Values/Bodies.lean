import Midend.Proofs.Ssa.Form
import Midend.Proofs.Values.Numbering
import Midend.Values.Global

/-! # Numbering of the instructions of a block

Instructions that are numbered one after another do what they did (`GlobalNumbering.numberAll_sound`).
In single assignment every variable keeps its number, and instructions read only what was available
before (`GlobalNumbering.numberedBody`). -/

namespace Midend

namespace GlobalNumbering

open ValueTable (SameBelow Extends Bound)

/-- Numbering a list starts with its first instruction. -/
theorem numberAll_cons (step : ValueTable → Instr → Instr × ValueTable × Log) (instr : Instr)
    (rest : List Instr) (table : ValueTable) :
    (numberAll step (instr :: rest) table).1 =
        (step table instr).1 :: (numberAll step rest (step table instr).2.1).1 ∧
      (numberAll step (instr :: rest) table).2.1 =
        (numberAll step rest (step table instr).2.1).2.1 := ⟨rfl, rfl⟩

/-- Numbered instructions are of the kinds of the old ones. -/
theorem forall₂_sameShape (place : Place) {instrs : List Instr}
    (plain : ∀ instr ∈ instrs, instr.Checked ∧ instr.isLabel = false ∧ instr.isPhi = false)
    (table : ValueTable) : List.Forall₂ Instr.SameShape instrs
      (numberAll (Numbering.numberInstr place) instrs table).1 := by
  induction instrs generalizing table with
  | nil => exact .nil
  | cons instr rest restIH =>
    obtain ⟨checked, notLabel, notPhi⟩ := plain instr (List.mem_cons_self ..)
    exact .cons (Numbering.recast_numberInstr place table checked notLabel notPhi).toSameShape
      (restIH (fun other member => plain other (List.mem_cons_of_mem _ member)) _)

/-- Numbered instructions do what the old ones do, and the table stays sound. -/
theorem numberAll_sound {floats : FloatOps} {calls : Calls} (place : Place) {instrs : List Instr}
    (plain : ∀ instr ∈ instrs, instr.Checked ∧ instr.isLabel = false ∧ instr.isPhi = false)
    (straight : ∀ instr ∈ instrs.dropLast, instr.isTerminator = false) {table : ValueTable}
    {val : Nat → Option Value} {state next : State} {control : Control}
    (sound : table.Sound ⟨floats, false⟩ val state.env)
    (ran : Instr.execAll ⟨floats, false⟩ calls instrs state = some (next, control)) :
    ∃ other, (numberAll (Numbering.numberInstr place) instrs table).2.1.Sound ⟨floats, false⟩ other
        next.env ∧
      Instr.execAll ⟨floats, false⟩ calls (numberAll (Numbering.numberInstr place) instrs table).1
        state = some (next, control) := by
  induction instrs generalizing table val state with
  | nil =>
    obtain ⟨rfl, rfl⟩ := Prod.mk.inj (Option.some.inj ran)
    exact ⟨val, sound, rfl⟩
  | cons instr rest restIH =>
    obtain ⟨checked, notLabel, notPhi⟩ := plain instr (List.mem_cons_self ..)
    rw [Instr.execAll_cons] at ran
    obtain ⟨⟨middle, goes⟩, first, ran⟩ := Option.bind_eq_some_iff.1 ran
    obtain ⟨between, _, soundMiddle, firstImage⟩ :=
      Numbering.numberInstr_sound place sound checked notLabel notPhi first
    rw [(numberAll_cons ..).1, (numberAll_cons ..).2, Instr.execAll_cons, firstImage,
      Option.bind_some]
    by_cases goesOn : goes = .next
    · rw [if_pos goesOn] at ran ⊢
      exact restIH (fun other member => plain other (List.mem_cons_of_mem _ member))
        (Instr.straight_tail straight) soundMiddle ran
    · obtain rfl := Instr.eq_nil_of_stops straight first goesOn
      rw [if_neg goesOn] at ran ⊢
      obtain ⟨rfl, rfl⟩ := Prod.mk.inj (Option.some.inj ran)
      exact ⟨between, soundMiddle, rfl⟩

/-! ## Single assignment -/

/-- What numbering instructions of a block in single assignment comes to, whatever a run does. -/
structure NumberedBody (graph : FlowGraph) (name : String) (before body images : List Instr)
    (table after : ValueTable) : Prop where
  /-- Numbers stay. -/
  size_le : table.size ≤ after.size
  /-- Variables keep their numbers. -/
  kept : ∀ var number, table.numberOf? var = some number → after.numberOf? var = some number
  /-- Values stay held. -/
  held : table.Held → after.Held
  /-- What has a number is available. -/
  bound : ∀ var, after.Bound var → Ssa.Available graph name (before ++ body) var
  /-- Merges keep their numbers. -/
  phis : ∀ block incoming, after.exprs.get? (.phi block incoming) =
    table.exprs.get? (.phi block incoming)
  /-- The same variables are written. -/
  dests_eq : images.filterMap Instr.dest? = body.filterMap Instr.dest?
  /-- Instructions read what is available. -/
  args : ∀ front image rest, images = front ++ image :: rest → ∀ arg ∈ image.args,
    Ssa.Available graph name (before ++ front) arg

/-- In single assignment what has a number while an instruction is numbered is available: before the
instruction once its arguments have numbers, and behind it once it is numbered. -/
theorem available_numberInstr (place : Place) {graph : FlowGraph} (inSsa : Ssa.InSsa graph)
    {block : Block} (member : block ∈ graph.blocks) {before rest : List Instr} {instr : Instr}
    (split : block.instrs = before ++ instr :: rest) (notLabel : instr.isLabel = false)
    (notPhi : instr.isPhi = false) {table : ValueTable}
    (bound : ∀ var, table.Bound var → Ssa.Available graph block.name before var) :
    (∀ var, (Numbering.canonicalizeArgs place instr.args table).2.1.Bound var →
      Ssa.Available graph block.name before var) ∧
    ∀ var, (Numbering.numberInstr place table instr).2.1.Bound var →
      Ssa.Available graph block.name (before ++ [instr]) var := by
  have boundArgs : ∀ var, (Numbering.canonicalizeArgs place instr.args table).2.1.Bound var →
      Ssa.Available graph block.name before var := by
    intro var isBound
    rcases (Numbering.canonicalizeArgs_spec place instr.args table).1.origin var isBound with
      early | isArg
    · exact bound var early
    · exact inSsa.available block member before instr rest split notPhi var isArg
  have extended := Numbering.extends_numberInstr place table notLabel notPhi
    fun dest isDest isBound => inSsa.not_available member split isDest (boundArgs dest isBound)
  refine ⟨boundArgs, fun var isBound => ?_⟩
  rcases extended.origin var isBound with early | isDest
  · refine (boundArgs var early).mono fun dest inside => ?_
    rw [List.filterMap_append]
    exact List.mem_append_left _ inside
  · refine .inr (.inl (List.mem_filterMap.2 ⟨instr, by simp, ?_⟩))
    simpa using isDest

/-- Instructions of a block in single assignment are numbered one after another. -/
theorem numberedBody (place : Place) {graph : FlowGraph} (inSsa : Ssa.InSsa graph) {block : Block}
    (member : block ∈ graph.blocks) {before body : List Instr}
    (split : block.instrs = before ++ body)
    (plain : ∀ instr ∈ body, instr.Checked ∧ instr.isLabel = false ∧ instr.isPhi = false)
    (table : ValueTable)
    (bound : ∀ var, table.Bound var → Ssa.Available graph block.name before var) :
    NumberedBody graph block.name before body
      (numberAll (Numbering.numberInstr place) body table).1 table
      (numberAll (Numbering.numberInstr place) body table).2.1 := by
  induction body generalizing before table with
  | nil =>
    refine ⟨Nat.le_refl _, fun _ _ => id, id, ?_, fun _ _ => rfl, rfl, ?_⟩
    · rwa [List.append_nil]
    · intro front image rest impossible
      cases front <;> cases impossible
  | cons instr later laterIH =>
    obtain ⟨checked, notLabel, notPhi⟩ := plain instr (List.mem_cons_self ..)
    have args := (Numbering.canonicalizeArgs_spec place instr.args table).1
    obtain ⟨boundArgs, boundNext⟩ :=
      available_numberInstr place inSsa member split notLabel notPhi bound
    have recast := Numbering.recast_numberInstr place table checked notLabel notPhi
    have extended := Numbering.extends_numberInstr place table notLabel notPhi
      fun dest isDest isBound => inSsa.not_available member split isDest (boundArgs dest isBound)
    -- What was written so far is in front of the rest, where it is available.
    have splitNext : block.instrs = (before ++ [instr]) ++ later := by
      rw [split, List.append_assoc]
      rfl
    have tail := laterIH splitNext
      (fun other inside => plain other (List.mem_cons_of_mem _ inside)) _ boundNext
    have sameDests : ∀ list : List Instr,
        ((Numbering.numberInstr place table instr).1 :: list).filterMap Instr.dest? =
          (instr :: list).filterMap Instr.dest? := by
      intro list
      rw [List.filterMap_cons, List.filterMap_cons, recast.dest?_eq]
    refine ⟨Nat.le_trans args.size_le (Nat.le_trans extended.size_le tail.size_le),
      fun var number found => tail.kept _ _ (extended.kept _ _ (args.kept _ _ found)),
      fun held => tail.held (extended.held (args.held held)), fun var isBound => ?_,
      fun other incoming => ?_, ?_, ?_⟩
    · have available := tail.bound var isBound
      rwa [List.append_assoc] at available
    · exact (tail.phis other incoming).trans
        (Numbering.phis_numberInstr place table instr other incoming)
    · rw [(numberAll_cons ..).1, sameDests, List.filterMap_cons, List.filterMap_cons, tail.dests_eq]
    · intro front image rest found arg isArg
      rw [(numberAll_cons ..).1] at found
      cases front with
      | nil =>
        obtain ⟨rfl, _⟩ := List.cons.inj found
        rw [List.append_nil]
        exact boundArgs arg (recast.args arg isArg)
      | cons first front =>
        obtain ⟨rfl, others⟩ := List.cons.inj found
        -- An instruction behind the first one has one more in front of it.
        refine (tail.args front image rest others arg isArg).mono fun dest inside => ?_
        rw [List.filterMap_append, sameDests, ← List.filterMap_append]
        simpa using inside

end GlobalNumbering

end Midend
