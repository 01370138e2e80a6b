import Mathlib.Algebra.GroupWithZero.Nat
import Midend.Proofs.Values.Local

/-! # Weights of code

Numbering turns instructions into lighter ones: constants are the lightest, then copies. It says so
whenever it changes something (`GlobalNumbering.weigh_numberAll`), and where no instruction gets
lighter it only replaces arguments, so doing it again changes nothing
(`LocalNumbering.run_again`). -/

namespace Midend

/-! ## Weights -/

/-- How heavy an action is: constants are the lightest, then copies. -/
def Action.weight : Action → Nat
  | .const _ _ _ => 1
  | .compute .id _ _ operands => if operands.args.length = 1 then 2 else 3
  | _ => 3

/-- How heavy an instruction is. -/
def Instr.weight (instr : Instr) : Nat := instr.action.weight

/-- How heavy code is. -/
def weigh (instrs : List Instr) : Nat := (instrs.map Instr.weight).sum

@[simp] theorem weigh_nil : weigh [] = 0 := rfl

@[simp] theorem weigh_cons (instr : Instr) (rest : List Instr) :
    weigh (instr :: rest) = instr.weight + weigh rest := by simp [weigh]

@[simp] theorem weigh_append (left right : List Instr) :
    weigh (left ++ right) = weigh left + weigh right := by simp [weigh]

/-- No instruction is without weight. -/
theorem Instr.weight_pos (instr : Instr) : 0 < instr.weight := by
  unfold Instr.weight Action.weight
  split
  · decide
  · split <;> decide
  · decide

@[simp] theorem Action.weight_const (dest : String) (ty : Ty) (literal : Literal) :
    (Action.const dest ty literal).weight = 1 := rfl

@[simp] theorem Action.weight_copy (dest : String) (ty : Ty) (source : String) :
    (Action.compute .id dest ty { args := [source] }).weight = 2 := rfl

/-- An operation other than a copy weighs most. -/
theorem Action.weight_compute {op : Opcode} {dest : String} {ty : Ty} {operands : Operands}
    (notCopy : op = .id → operands.args.length ≠ 1) :
    (Action.compute op dest ty operands).weight = 3 := by
  unfold Action.weight
  split
  · rename_i isConst
    cases isConst
  · rename_i isCompute
    obtain ⟨rfl, _, _, rfl⟩ := Action.compute.inj isCompute
    exact if_neg (notCopy rfl)
  · rfl

/-- Other arguments, as many as before, weigh the same. -/
theorem Action.weight_mapOperands (action : Action) {change : Operands → Operands}
    (sameLength : (change action.operands).args.length = action.operands.args.length) :
    (action.mapOperands change).weight = action.weight := by
  cases action with
  | const => rfl
  | effect => rfl
  | label => rfl
  | compute op dest ty operands =>
    rw [Action.operands] at sameLength
    cases op <;> simp only [Action.mapOperands, Action.weight, sameLength]

@[simp] theorem Instr.weight_mapArgs (instr : Instr) (change : String → String) :
    (instr.mapArgs change).weight = instr.weight :=
  Action.weight_mapOperands instr.action (List.length_map _)

@[simp] theorem Instr.weight_mapDest (instr : Instr) (change : String → String) :
    (instr.mapDest change).weight = instr.weight := by
  unfold Instr.weight Instr.mapDest
  cases instr.action with
  | compute op => cases op <;> rfl
  | _ => rfl

namespace Numbering

/-! ## One instruction -/

/-- What is written gets lighter, with a report, or stays as it is without one. -/
theorem weight_numberWrite (place : Place) (table : ValueTable) (action : Action) (dest : String)
    (ty : Ty) :
    ((numberWrite place table action dest ty).action = action ∧
      (numberWrite place table action dest ty).log = []) ∨
    ((numberWrite place table action dest ty).action.weight < action.weight ∧
      (numberWrite place table action dest ty).log ≠ []) := by
  rcases numberWrite_cases place action dest ty with ⟨_, _, literal, _, same⟩ |
    ⟨written, ty', operands, source, isAction, isSource, same⟩ |
    ⟨op, written, ty', operands, isAction, _, _, notCopy, same⟩ | same
  · rw [same, numberConst]
    split <;> exact .inl ⟨rfl, rfl⟩
  · have isCopy : action.weight = 2 := by simp [isAction, Action.weight, isSource]
    rw [same, numberCopy]
    dsimp only
    split
    · exact .inr ⟨by simp [isCopy, becomeConst], by simp⟩
    · exact .inl ⟨rfl, rfl⟩
  · have isHeavy : action.weight = 3 := by rw [isAction, Action.weight_compute notCopy]
    rw [same, numberPure]
    dsimp only
    split
    · unfold numberNew
      dsimp only
      split
      · refine .inr ?_
        split <;> exact ⟨by simp [isHeavy, becomeConst], by simp⟩
      · exact .inl ⟨rfl, rfl⟩
    · split
      · exact .inr ⟨by simp [isHeavy, becomeConst], by simp⟩
      · exact .inr ⟨by simp [isHeavy], by simp⟩
      · exact .inl ⟨rfl, rfl⟩
  · rw [same]
    exact .inl ⟨rfl, rfl⟩

/-- Arguments are canonical already if nothing is reported. -/
theorem canonicalizeArgs_of_quiet (place : Place) {args : List String} {table : ValueTable}
    (quiet : (canonicalizeArgs place args table).2.2 = []) :
    (canonicalizeArgs place args table).1 = args := by
  induction args generalizing table with
  | nil => rfl
  | cons arg rest restIH =>
    simp only [canonicalizeArgs, List.append_eq_nil_iff, ite_eq_left_iff] at quiet ⊢
    obtain ⟨isSame, quietRest⟩ := quiet
    have same := not_imp_comm.1 isSame (by simp)
    rw [same, restIH quietRest]

/-- An instruction with canonical arguments is its own canonical form. -/
theorem canonicalized_of_quiet (place : Place) {table : ValueTable} {instr : Instr}
    (quiet : (canonicalizeArgs place instr.args table).2.2 = []) :
    canonicalized place table instr = instr := by
  rw [canonicalized, canonicalizeArgs_of_quiet place quiet]
  obtain ⟨action, pos, key⟩ := instr
  cases action <;> rfl

/-- Canonical arguments stay, and the table gets from them what it got from the old ones. -/
theorem canonicalizeArgs_again (place : Place) (args : List String) (table : ValueTable) :
    canonicalizeArgs place (canonicalizeArgs place args table).1 table =
      ((canonicalizeArgs place args table).1, (canonicalizeArgs place args table).2.1, []) := by
  induction args generalizing table with
  | nil => rfl
  | cons arg rest restIH =>
    -- The canonical variable has the number of the argument, and no other table comes of it.
    have again : table.numberOrInput (((table.numberOrInput arg).2.canonical?
        (table.numberOrInput arg).1).getD arg) = table.numberOrInput arg := by
      rcases table.numberOrInput_cases arg with ⟨number, found, same⟩ | ⟨absent, same⟩
      · rw [same]
        cases isCanonical : table.canonical? number with
        | none => exact same
        | some canonical =>
          have held := (ValueTable.numberOf?_of_canonical? isCanonical).1
          simp [ValueTable.numberOrInput, held]
      · have isArg : ((table.numberOrInput arg).2.canonical? (table.numberOrInput arg).1).getD arg =
            arg := by
          rw [same]
          simp [ValueTable.canonical?, ValueTable.holds, ValueTable.row?, ValueTable.size,
            ValueTable.pushOpaque]
        rw [isArg]
    simp only [canonicalizeArgs]
    rw [again, restIH]
    have isSame : ((table.numberOrInput arg).2.canonical? (table.numberOrInput arg).1).getD
        (((table.numberOrInput arg).2.canonical? (table.numberOrInput arg).1).getD arg) =
        ((table.numberOrInput arg).2.canonical? (table.numberOrInput arg).1).getD arg := by
      cases (table.numberOrInput arg).2.canonical? (table.numberOrInput arg).1 <;> rfl
    simp [isSame]

/-- An instruction with canonical arguments is as heavy. -/
theorem weight_canonicalized (place : Place) (table : ValueTable) (instr : Instr) :
    (canonicalized place table instr).weight = instr.weight :=
  Action.weight_mapOperands instr.action (length_canonicalized place table instr)

@[simp] theorem isLabel_canonicalized (place : Place) (table : ValueTable) (instr : Instr) :
    (canonicalized place table instr).isLabel = instr.isLabel := by
  obtain ⟨action, pos, key⟩ := instr
  cases action <;> rfl

@[simp] theorem isPhi_canonicalized (place : Place) (table : ValueTable) (instr : Instr) :
    (canonicalized place table instr).isPhi = instr.isPhi := by
  obtain ⟨action, pos, key⟩ := instr
  cases action with
  | compute op => cases op <;> rfl
  | _ => rfl

@[simp] theorem ty?_canonicalized (place : Place) (table : ValueTable) (instr : Instr) :
    (canonicalized place table instr).ty? = instr.ty? := by
  obtain ⟨action, pos, key⟩ := instr
  cases action <;> rfl

/-- Canonical arguments stay when they are made canonical again. -/
theorem canonicalized_again (place : Place) (table : ValueTable) (instr : Instr) :
    canonicalized place table (canonicalized place table instr) = canonicalized place table instr := by
  have again : (canonicalizeArgs place (canonicalized place table instr).args table).1 =
      (canonicalizeArgs place instr.args table).1 := by
    rw [args_canonicalized, canonicalizeArgs_again]
  rw [canonicalized, again, canonicalized]
  cases instr.action <;> rfl

/-- An instruction that writes a variable is numbered with canonical arguments. -/
theorem numberInstr_of_dest (place : Place) (table : ValueTable) {instr : Instr}
    (notPhi : instr.isPhi = false) {dest : String} (isDest : instr.dest? = some dest) :
    ∃ ty, numberInstr place table instr =
      ({ instr with action := (numberWrite place (canonicalizeArgs place instr.args table).2.1
          (canonicalized place table instr).action dest ty).action },
        (numberWrite place (canonicalizeArgs place instr.args table).2.1
          (canonicalized place table instr).action dest ty).table.bind dest
            (numberWrite place (canonicalizeArgs place instr.args table).2.1
              (canonicalized place table instr).action dest ty).number,
        (canonicalizeArgs place instr.args table).2.2 ++
          (numberWrite place (canonicalizeArgs place instr.args table).2.1
            (canonicalized place table instr).action dest ty).log) ∧
      instr.ty? = some ty := by
  obtain ⟨action, pos, key⟩ := instr
  cases action with
  | const written ty literal =>
    obtain rfl := Option.some.inj isDest
    exact ⟨ty, rfl, rfl⟩
  | compute op written ty operands =>
    obtain rfl := Option.some.inj isDest
    refine ⟨ty, ?_, rfl⟩
    rw [numberInstr, if_neg (by simpa [Instr.isLabel] using notPhi)]
    rfl
  | effect op operands => cases isDest
  | label name => cases isDest

/-- An instruction that writes nothing only gets canonical arguments. -/
theorem numberInstr_of_no_dest (place : Place) (table : ValueTable) {instr : Instr}
    (notLabel : instr.isLabel = false) (isNone : instr.dest? = none) :
    numberInstr place table instr = (canonicalized place table instr,
      (canonicalizeArgs place instr.args table).2.1,
      (canonicalizeArgs place instr.args table).2.2) := by
  obtain ⟨action, pos, key⟩ := instr
  cases action with
  | const => cases isNone
  | compute => cases isNone
  | effect op operands => rfl
  | label name => cases notLabel

/-- How an instruction was numbered when it did not get lighter: its arguments became canonical, with
the reports of that, and it stays as it is when it is numbered again. -/
structure Steady (place : Place) (table : ValueTable) (instr : Instr) : Prop where
  /-- Its arguments became canonical. -/
  image_eq : (numberInstr place table instr).1 = canonicalized place table instr
  /-- Nothing else is reported. -/
  log_eq : (numberInstr place table instr).2.2 = (canonicalizeArgs place instr.args table).2.2
  /-- It stays as it is. -/
  again : numberInstr place table (canonicalized place table instr) =
    (canonicalized place table instr, (numberInstr place table instr).2.1, [])

/-- An instruction gets lighter, with a report, or only its arguments become canonical. -/
theorem lighter_or_steady (place : Place) (table : ValueTable) {instr : Instr}
    (notLabel : instr.isLabel = false) (notPhi : instr.isPhi = false) :
    ((numberInstr place table instr).1.weight < instr.weight ∧
      (numberInstr place table instr).2.2 ≠ []) ∨ Steady place table instr := by
  have sameDest := dest?_canonicalized place table instr
  have again : canonicalizeArgs place (canonicalized place table instr).args table =
      ((canonicalizeArgs place instr.args table).1,
        (canonicalizeArgs place instr.args table).2.1, []) := by
    rw [args_canonicalized, canonicalizeArgs_again]
  cases isDest : instr.dest? with
  | none =>
    have numbered := numberInstr_of_no_dest place table notLabel isDest
    refine .inr ⟨by rw [numbered], by rw [numbered], ?_⟩
    rw [numberInstr_of_no_dest place table ((isLabel_canonicalized ..).trans notLabel)
      (sameDest.trans isDest), numbered, canonicalized_again, again]
  | some dest =>
    obtain ⟨ty, numbered, isTy⟩ := numberInstr_of_dest place table notPhi isDest
    obtain ⟨other, numberedAgain, isOther⟩ := numberInstr_of_dest place table
      ((isPhi_canonicalized ..).trans notPhi) (sameDest.trans isDest)
    obtain rfl : other = ty := by
      rw [ty?_canonicalized, isTy] at isOther
      exact (Option.some.inj isOther).symm
    rw [again, canonicalized_again] at numberedAgain
    rcases weight_numberWrite place (canonicalizeArgs place instr.args table).2.1
      (canonicalized place table instr).action dest other with ⟨sameAction, quiet⟩ | ⟨less, reported⟩
    · refine .inr ⟨by rw [numbered, sameAction]; rfl, by rw [numbered, quiet, List.append_nil], ?_⟩
      rw [numberedAgain, numbered, sameAction, quiet]
      rfl
    · refine .inl ⟨?_, by rw [numbered]; simp [reported]⟩
      rw [numbered, ← weight_canonicalized place table instr]
      exact less

/-- An instruction never gets heavier, and stays as it is if nothing is reported. -/
theorem weight_numberInstr (place : Place) (table : ValueTable) {instr : Instr}
    (notLabel : instr.isLabel = false) (notPhi : instr.isPhi = false) :
    (numberInstr place table instr).1.weight ≤ instr.weight ∧
      ((numberInstr place table instr).2.2 = [] → (numberInstr place table instr).1 = instr) := by
  rcases lighter_or_steady place table notLabel notPhi with ⟨less, reported⟩ | steady
  · exact ⟨Nat.le_of_lt less, fun quiet => absurd quiet reported⟩
  · refine ⟨?_, fun quiet => ?_⟩
    · rw [steady.image_eq, weight_canonicalized]
    · rw [steady.log_eq] at quiet
      rw [steady.image_eq, canonicalized_of_quiet place quiet]

end Numbering

namespace GlobalNumbering

/-! ## Lists of instructions -/

/-- The reports of a numbered list start with those of its first instruction. -/
theorem log_numberAll_cons (step : ValueTable → Instr → Instr × ValueTable × Log) (instr : Instr)
    (rest : List Instr) (table : ValueTable) :
    (numberAll step (instr :: rest) table).2.2 =
      (step table instr).2.2 ++ (numberAll step rest (step table instr).2.1).2.2 := rfl

/-- Numbered instructions do not get heavier, and stay as they are if nothing is reported. If they
stay as heavy, numbering them again reports nothing. -/
theorem weigh_numberAll (place : Place) {instrs : List Instr}
    (plain : ∀ instr ∈ instrs, instr.isLabel = false ∧ instr.isPhi = false) (table : ValueTable) :
    weigh (numberAll (Numbering.numberInstr place) instrs table).1 ≤ weigh instrs ∧
      ((numberAll (Numbering.numberInstr place) instrs table).2.2 = [] →
        (numberAll (Numbering.numberInstr place) instrs table).1 = instrs) ∧
      (weigh (numberAll (Numbering.numberInstr place) instrs table).1 = weigh instrs →
        (numberAll (Numbering.numberInstr place)
          (numberAll (Numbering.numberInstr place) instrs table).1 table).2.2 = []) := by
  induction instrs generalizing table with
  | nil => simp [numberAll]
  | cons instr rest restIH =>
    obtain ⟨notLabel, notPhi⟩ := plain instr (List.mem_cons_self ..)
    obtain ⟨lighter, same, again⟩ := restIH
      (fun other member => plain other (List.mem_cons_of_mem _ member))
      (Numbering.numberInstr place table instr).2.1
    obtain ⟨first, firstSame⟩ := Numbering.weight_numberInstr place table notLabel notPhi
    rw [(numberAll_cons ..).1, log_numberAll_cons, weigh_cons, weigh_cons, List.append_eq_nil_iff]
    refine ⟨by omega, ?_, fun isSteady => ?_⟩
    · rintro ⟨quiet, quietRest⟩
      rw [firstSame quiet, same quietRest]
    · rcases Numbering.lighter_or_steady place table notLabel notPhi with ⟨less, _⟩ | steady
      · omega
      · rw [log_numberAll_cons, steady.image_eq, steady.again, List.nil_append]
        exact again (by omega)

/-- Numbered instructions write what they wrote, and are no merges. -/
theorem dests_numberAll (place : Place) {instrs : List Instr}
    (plain : ∀ instr ∈ instrs, instr.Checked ∧ instr.isLabel = false ∧ instr.isPhi = false)
    (table : ValueTable) :
    (numberAll (Numbering.numberInstr place) instrs table).1.filterMap Instr.dest? =
        instrs.filterMap Instr.dest? ∧
      ∀ image ∈ (numberAll (Numbering.numberInstr place) instrs table).1, image.isPhi = false := by
  refine ⟨?_, fun image member => ?_⟩
  · induction instrs generalizing table with
    | nil => rfl
    | cons instr rest restIH =>
      obtain ⟨checked, notLabel, notPhi⟩ := plain instr (List.mem_cons_self ..)
      have sameDest := (Numbering.recast_numberInstr place table checked notLabel notPhi).dest?_eq
      have sameRest := restIH (fun other member => plain other (List.mem_cons_of_mem _ member))
        (Numbering.numberInstr place table instr).2.1
      rw [(numberAll_cons ..).1, List.filterMap_cons, List.filterMap_cons, sameDest, sameRest]
  · obtain ⟨original, inside, shape⟩ :=
      exists_of_forall₂_right (forall₂_sameShape place plain table) member
    exact shape.isPhi_eq.trans (plain original inside).2.2

end GlobalNumbering

namespace LocalNumbering

/-! ## Blocks numbered on their own -/

/-- Renaming what is written changes no weight; without a report it changes nothing, and nothing is
renamed if nothing was. -/
theorem renameWrite_quiet (place : Place) (instr : Instr) (later : List Instr) (state : State) :
    (renameWrite place instr later state).1.weight = instr.weight ∧
      ((renameWrite place instr later state).2.2 = [] → (renameWrite place instr later state).1 = instr ∧
        ((∀ var, state.renamed.get? var = none) →
          ∀ var, (renameWrite place instr later state).2.1.renamed.get? var = none)) := by
  unfold renameWrite
  split
  · exact ⟨rfl, fun _ => ⟨rfl, id⟩⟩
  · split
    · exact ⟨Instr.weight_mapDest .., fun impossible => by simp at impossible⟩
    · exact ⟨rfl, fun _ => ⟨rfl, fun unrenamed var => by simp [unrenamed]⟩⟩

/-- What is not written again is not renamed. -/
theorem log_renameWrite_of_once (place : Place) {instr : Instr} {later : List Instr} (state : State)
    (once : ∀ dest, instr.dest? = some dest → dest ∉ later.filterMap Instr.dest?) :
    (renameWrite place instr later state).2.2 = [] := by
  unfold renameWrite
  split
  · rfl
  · rename_i dest isDest
    rw [if_neg]
    intro again
    obtain ⟨other, member, isOther⟩ := List.any_eq_true.1 again
    exact once dest isDest (List.mem_filterMap.2 ⟨other, member, of_decide_eq_true isOther⟩)

/-- What one instruction reports: new names, and how it is numbered. -/
def logOne (place : Place) (instr : Instr) (later : List Instr) (state : State) : Log :=
  let written := renameWrite place (instr.mapArgs fun arg => state.renamed.getD arg arg) later state
  written.2.2 ++ (Numbering.numberInstr place written.2.1.table written.1).2.2

/-- The reports of numbered instructions start with those of the first one. -/
theorem log_numberInstrs_cons (place : Place) {instr : Instr} (notPhi : instr.isPhi = false)
    (rest : List Instr) (state : State) :
    (numberInstrs place (instr :: rest) state).2.2 = logOne place instr rest state ++
      (numberInstrs place rest (numberOne place instr rest state).2).2.2 := by
  rw [numberInstrs, if_neg (by simp [notPhi])]
  rfl

/-- Leading merges are not reported. -/
theorem log_numberInstrs_phis (place : Place) {phis : List Instr}
    (merges : ∀ phi ∈ phis, phi.isPhi = true) (rest : List Instr) (state : State) :
    (numberInstrs place (phis ++ rest) state).2.2 =
      (numberInstrs place rest { state with table := definePhis phis state.table }).2.2 := by
  induction phis generalizing state with
  | nil => rfl
  | cons phi phis phisIH =>
    rw [List.cons_append, numberInstrs, if_pos (merges phi (List.mem_cons_self ..))]
    dsimp only
    rw [phisIH fun other member => merges other (List.mem_cons_of_mem _ member)]
    cases isDest : phi.dest? <;> simp [definePhis, isDest]

/-- Where no variable has another name, arguments stay. -/
theorem mapArgs_of_unrenamed {renamed : SortedMap String String}
    (unrenamed : ∀ var, renamed.get? var = none) (instr : Instr) :
    instr.mapArgs (fun arg => renamed.getD arg arg) = instr := by
  have isId : (fun arg => renamed.getD arg arg) = id := by
    funext arg
    simp [SortedMap.getD, unrenamed]
  rw [isId, Instr.mapArgs_id]

/-- An instruction does not get heavier. If nothing is reported it stays as it is, and no variable
gets another name. -/
theorem weight_numberOne (place : Place) {instr : Instr} (notLabel : instr.isLabel = false)
    (notPhi : instr.isPhi = false) (later : List Instr) (state : State) :
    (numberOne place instr later state).1.weight ≤ instr.weight ∧
      ((∀ var, state.renamed.get? var = none) → logOne place instr later state = [] →
        (numberOne place instr later state).1 = instr ∧
          ∀ var, (numberOne place instr later state).2.renamed.get? var = none) := by
  have kept := renameWrite_quiet place (instr.mapArgs fun arg => state.renamed.getD arg arg) later state
  obtain ⟨⟨change, isChange⟩, _⟩ := exists_mapDest_renameWrite place
    (instr.mapArgs fun arg => state.renamed.getD arg arg) later state
  unfold numberOne logOne
  generalize renameWrite place (instr.mapArgs fun arg => state.renamed.getD arg arg) later state =
    written at kept isChange
  obtain ⟨image, next, renames⟩ := written
  obtain ⟨sameWeight, quietly⟩ := kept
  dsimp only at sameWeight quietly isChange ⊢
  obtain ⟨lighter, same⟩ := Numbering.weight_numberInstr place next.table
    (show image.isLabel = false by rw [isChange]; simpa using notLabel)
    (show image.isPhi = false by rw [isChange]; simpa using notPhi)
  refine ⟨lighter.trans_eq (by rw [sameWeight, Instr.weight_mapArgs]), fun unrenamed quiet => ?_⟩
  obtain ⟨noNames, noChanges⟩ := List.append_eq_nil_iff.1 quiet
  obtain ⟨isImage, stillUnrenamed⟩ := quietly noNames
  refine ⟨?_, stillUnrenamed unrenamed⟩
  rw [same noChanges, isImage, mapArgs_of_unrenamed unrenamed]

/-- Numbered instructions do not get heavier, and stay as they are if nothing is reported. -/
theorem weigh_numberInstrs (place : Place) {instrs : List Instr}
    (plain : ∀ instr ∈ instrs, instr.isLabel = false ∧ instr.isPhi = false) (state : State) :
    weigh (numberInstrs place instrs state).1 ≤ weigh instrs ∧
      ((∀ var, state.renamed.get? var = none) → (numberInstrs place instrs state).2.2 = [] →
        (numberInstrs place instrs state).1 = instrs) := by
  induction instrs generalizing state with
  | nil => exact ⟨Nat.le_refl _, fun _ _ => rfl⟩
  | cons instr rest restIH =>
    obtain ⟨notLabel, notPhi⟩ := plain instr (List.mem_cons_self ..)
    obtain ⟨lighter, same⟩ := restIH
      (fun other member => plain other (List.mem_cons_of_mem _ member))
      (numberOne place instr rest state).2
    obtain ⟨first, firstSame⟩ := weight_numberOne place notLabel notPhi rest state
    rw [(numberInstrs_cons place notPhi rest state).1, log_numberInstrs_cons place notPhi, weigh_cons,
      weigh_cons]
    refine ⟨by omega, fun unrenamed quiet => ?_⟩
    obtain ⟨quietFirst, quietRest⟩ := List.append_eq_nil_iff.1 quiet
    obtain ⟨isInstr, stillUnrenamed⟩ := firstSame unrenamed quietFirst
    rw [isInstr, same stillUnrenamed quietRest]

/-- Where every variable is written once, only the numbering is reported. -/
theorem log_numberInstrs_of_once (place : Place) {instrs : List Instr}
    (notPhi : ∀ instr ∈ instrs, instr.isPhi = false) (nodup : (instrs.filterMap Instr.dest?).Nodup)
    (state : State) (unrenamed : ∀ var, state.renamed.get? var = none) :
    (numberInstrs place instrs state).2.2 =
      (GlobalNumbering.numberAll (Numbering.numberInstr place) instrs state.table).2.2 := by
  induction instrs generalizing state with
  | nil => rfl
  | cons instr later laterIH =>
    have once : ∀ dest, instr.dest? = some dest → dest ∉ later.filterMap Instr.dest? := by
      intro dest isDest
      rw [List.filterMap_cons_some isDest] at nodup
      exact (List.nodup_cons.1 nodup).1
    obtain ⟨_, isTable, stillUnrenamed⟩ := numberOne_of_once place unrenamed once
    have noNames := log_renameWrite_of_once place state once
    have isWritten := (renameWrite_quiet place instr later state).2 noNames
    have sameTable := (exists_mapDest_renameWrite place instr later state).2
    rw [log_numberInstrs_cons place (notPhi instr (List.mem_cons_self ..)),
      GlobalNumbering.log_numberAll_cons, logOne, mapArgs_of_unrenamed unrenamed, noNames,
      isWritten.1, sameTable, List.nil_append, ← isTable,
      laterIH (fun other member => notPhi other (List.mem_cons_of_mem _ member))
        (nodup.sublist ((List.sublist_cons_self instr later).filterMap _)) _ stillUnrenamed]

/-- What a numbered instruction writes: what it wrote, or something new if that is written again. -/
theorem dest?_numberOne (place : Place) {instr : Instr} (checked : instr.Checked)
    (notLabel : instr.isLabel = false) (notPhi : instr.isPhi = false) (later : List Instr)
    (state : State) :
    ((numberOne place instr later state).1.dest? = instr.dest? ∧
      (numberOne place instr later state).2.names = state.names ∧
      ∀ dest, instr.dest? = some dest → dest ∉ later.filterMap Instr.dest?) ∨
    ∃ dest, instr.dest? = some dest ∧
      (numberOne place instr later state).1.dest? = some (state.names.fresh dest).1 ∧
      (numberOne place instr later state).2.names = (state.names.fresh dest).2 := by
  have cases := renameWrite_cases place (instr.mapArgs fun arg => state.renamed.getD arg arg) later state
  obtain ⟨⟨change, isChange⟩, _⟩ := exists_mapDest_renameWrite place
    (instr.mapArgs fun arg => state.renamed.getD arg arg) later state
  unfold numberOne
  generalize renameWrite place (instr.mapArgs fun arg => state.renamed.getD arg arg) later state =
    written at cases isChange
  obtain ⟨image, next, renames⟩ := written
  dsimp only at cases isChange ⊢
  have sameDest := (Numbering.recast_numberInstr place next.table
    (show image.Checked by rw [isChange]; exact (checked.mapArgs _).mapDest _)
    (show image.isLabel = false by rw [isChange]; simpa using notLabel)
    (show image.isPhi = false by rw [isChange]; simpa using notPhi)).dest?_eq
  rw [sameDest]
  rw [Instr.dest?_mapArgs] at cases
  rcases cases with ⟨isNone, rfl, rfl⟩ | ⟨dest, isDest, _, rfl, rfl⟩ | ⟨dest, isDest, once, rfl, rfl⟩
  · exact .inl ⟨Instr.dest?_mapArgs .., rfl, by simp [isNone]⟩
  · exact .inr ⟨dest, isDest, by simp [isDest], rfl⟩
  · refine .inl ⟨Instr.dest?_mapArgs .., rfl, fun other isOther => ?_⟩
    rw [isDest] at isOther
    rwa [← Option.some.inj isOther]

/-- Numbered instructions write every variable once: those that were written again have names that
nothing had before. -/
theorem nodup_numberInstrs (place : Place) {instrs : List Instr}
    (plain : ∀ instr ∈ instrs, instr.Checked ∧ instr.isLabel = false ∧ instr.isPhi = false)
    {state : State} (taken : ∀ dest ∈ instrs.filterMap Instr.dest?, dest ∈ state.names.taken) :
    ((numberInstrs place instrs state).1.filterMap Instr.dest?).Nodup ∧
      ∀ dest ∈ (numberInstrs place instrs state).1.filterMap Instr.dest?,
        dest ∈ instrs.filterMap Instr.dest? ∨ dest ∉ state.names.taken := by
  induction instrs generalizing state with
  | nil => simp [numberInstrs]
  | cons instr later laterIH =>
    obtain ⟨checked, notLabel, notPhi⟩ := plain instr (List.mem_cons_self ..)
    have plainLater := fun other member => plain other (List.mem_cons_of_mem instr member)
    have takenLater : ∀ dest ∈ later.filterMap Instr.dest?, dest ∈ state.names.taken := by
      intro dest inside
      refine taken dest ?_
      rw [List.filterMap_cons]
      split
      · exact inside
      · exact List.mem_cons_of_mem _ inside
    rw [(numberInstrs_cons place notPhi later state).1]
    rcases dest?_numberOne place checked notLabel notPhi later state with ⟨sameDest, sameNames, once⟩ |
      ⟨dest, isDest, isFresh, isNames⟩
    · obtain ⟨nodup, origin⟩ := laterIH plainLater (by rw [sameNames]; exact takenLater)
      rw [sameNames] at origin
      cases isDest : instr.dest? with
      | none =>
        rw [List.filterMap_cons_none (sameDest.trans isDest), List.filterMap_cons_none isDest]
        exact ⟨nodup, origin⟩
      | some dest =>
        rw [List.filterMap_cons_some isDest] at taken
        rw [List.filterMap_cons_some (sameDest.trans isDest), List.filterMap_cons_some isDest,
          List.nodup_cons]
        refine ⟨⟨fun inside => ?_, nodup⟩, fun other isOther => ?_⟩
        · rcases origin dest inside with again | isNew
          · exact once dest isDest again
          · exact isNew (taken dest (List.mem_cons_self ..))
        · rcases List.mem_cons.1 isOther with rfl | inside
          · exact .inl (List.mem_cons_self ..)
          · exact (origin other inside).imp_left (List.mem_cons_of_mem _)
    · -- A new name is neither one that is written later nor one that is handed out later.
      obtain ⟨_, isNew, takenThen⟩ := state.names.fresh_spec dest
      obtain ⟨nodup, origin⟩ := laterIH plainLater fun other inside => by
        rw [isNames]
        exact (takenThen other).2 (.inr (takenLater other inside))
      rw [isNames] at origin
      rw [List.filterMap_cons_some isFresh, List.filterMap_cons_some isDest, List.nodup_cons]
      refine ⟨⟨fun inside => ?_, nodup⟩, fun other isOther => ?_⟩
      · rcases origin _ inside with again | untaken
        · exact isNew (takenLater _ again)
        · exact untaken ((takenThen _).2 (.inl rfl))
      · rcases List.mem_cons.1 isOther with rfl | inside
        · exact .inr isNew
        · refine (origin other inside).imp (List.mem_cons_of_mem _) fun untaken isTaken => ?_
          exact untaken ((takenThen _).2 (.inr isTaken))

/-! ## Flow graphs -/

/-- Behind the merges of a block every variable is written once. -/
def WritesOnce (block : Block) : Prop := (block.body.filterMap Instr.dest?).Nodup

instance (block : Block) : Decidable (WritesOnce block) := inferInstanceAs (Decidable (List.Nodup _))

/-- What is numbered of a block is its body. -/
theorem numberInstrs_block (place : Place) (block : Block) (names : NameSupply) :
    (numberInstrs place block.instrs { names }).1 = block.phis ++
        (numberInstrs place block.body { names, table := definePhis block.phis {} }).1 ∧
      (numberInstrs place block.instrs { names }).2.2 =
        (numberInstrs place block.body { names, table := definePhis block.phis {} }).2.2 := by
  have merges : ∀ phi ∈ block.phis, phi.isPhi = true := fun phi => Block.isPhi_of_mem_phis
  have parts := numberInstrs_phis place merges block.body { names }
  have logs := log_numberInstrs_phis place merges block.body { names }
  rw [block.phis_append_body] at parts logs
  exact ⟨parts.1, logs⟩

/-- A block does not get heavier when it is numbered, and stays as it is if nothing is reported. -/
theorem weigh_numberInstrs_block (place : Place) {block : Block} (wellFormed : block.WellFormed)
    (names : NameSupply) :
    weigh (numberInstrs place block.instrs { names }).1 ≤ weigh block.instrs ∧
      ((numberInstrs place block.instrs { names }).2.2 = [] →
        (numberInstrs place block.instrs { names }).1 = block.instrs) := by
  obtain ⟨parts, logs⟩ := numberInstrs_block place block names
  obtain ⟨lighter, same⟩ := weigh_numberInstrs place
    (fun instr inside => (wellFormed.plain_body instr inside).2)
    { names, table := definePhis block.phis {} }
  have isSplit : weigh block.instrs = weigh block.phis + weigh block.body := by
    rw [← weigh_append, block.phis_append_body]
  rw [parts, logs, weigh_append]
  refine ⟨by omega, fun quiet => ?_⟩
  rw [same (fun var => by simp) quiet, block.phis_append_body]

/-- A block that writes every variable once and does not get lighter when it is numbered stays as it
is when it is numbered again. -/
theorem log_numberInstrs_again (place : Place) {block : Block} (wellFormed : block.WellFormed)
    (once : WritesOnce block) (names others : NameSupply)
    (steady : weigh (numberInstrs place block.instrs { names }).1 = weigh block.instrs) :
    (numberInstrs place (numberInstrs place block.instrs { names }).1 { names := others }).2.2 = [] := by
  have merges : ∀ phi ∈ block.phis, phi.isPhi = true := fun phi => Block.isPhi_of_mem_phis
  have plain := fun instr inside => (wellFormed.plain_body instr inside).2
  have isSplit : weigh block.instrs = weigh block.phis + weigh block.body := by
    rw [← weigh_append, block.phis_append_body]
  obtain ⟨sameDests, notPhi⟩ :=
    GlobalNumbering.dests_numberAll place wellFormed.plain_body (definePhis block.phis {})
  rw [(numberInstrs_block place block names).1, numberInstrs_of_once place wellFormed.phis_first
    once _ (fun var => by simp)] at steady ⊢
  rw [weigh_append, isSplit] at steady
  rw [log_numberInstrs_phis place merges, log_numberInstrs_of_once place notPhi (sameDests ▸ once) _
    (fun var => by simp)]
  exact (GlobalNumbering.weigh_numberAll place plain (definePhis block.phis {})).2.2 (by
    dsimp only at steady
    omega)

/-- Numbering blocks starts with the first one. -/
theorem numberBlocks_cons (function : String) (block : Block) (rest : List Block)
    (names : NameSupply) :
    let numbered := numberInstrs ⟨function, block.name, passName⟩ block.instrs { names }
    numberBlocks function (block :: rest) names =
      ({ block with instrs := numbered.1 } :: (numberBlocks function rest numbered.2.1.names).1,
        (numberBlocks function rest numbered.2.1.names).2.1,
        numbered.2.2 ++ (numberBlocks function rest numbered.2.1.names).2.2) := rfl

/-- Numbered blocks do not get heavier, and stay as they are if nothing is reported. -/
theorem weigh_numberBlocks (function : String) {blocks : List Block}
    (wellFormed : ∀ block ∈ blocks, block.WellFormed) (names : NameSupply) :
    weigh ((numberBlocks function blocks names).1.flatMap Block.instrs) ≤
        weigh (blocks.flatMap Block.instrs) ∧
      ((numberBlocks function blocks names).2.2 = [] →
        (numberBlocks function blocks names).1 = blocks) := by
  induction blocks generalizing names with
  | nil => exact ⟨Nat.le_refl _, fun _ => rfl⟩
  | cons block rest restIH =>
    obtain ⟨first, firstSame⟩ := weigh_numberInstrs_block ⟨function, block.name, passName⟩
      (wellFormed block (List.mem_cons_self ..)) names
    rw [numberBlocks_cons]
    dsimp only
    obtain ⟨lighter, same⟩ := restIH
      (fun other member => wellFormed other (List.mem_cons_of_mem _ member))
      (numberInstrs ⟨function, block.name, passName⟩ block.instrs { names }).2.1.names
    rw [List.flatMap_cons, List.flatMap_cons, weigh_append, weigh_append]
    refine ⟨by dsimp only; omega, fun quiet => ?_⟩
    obtain ⟨quietFirst, quietRest⟩ := List.append_eq_nil_iff.1 quiet
    rw [firstSame quietFirst, same quietRest]

/-- Blocks that write every variable once and do not get lighter when they are numbered stay as they
are when they are numbered again. -/
theorem log_numberBlocks_again (function : String) {blocks : List Block}
    (wellFormed : ∀ block ∈ blocks, block.WellFormed) (once : ∀ block ∈ blocks, WritesOnce block)
    (names others : NameSupply)
    (steady : weigh ((numberBlocks function blocks names).1.flatMap Block.instrs) =
      weigh (blocks.flatMap Block.instrs)) :
    (numberBlocks function (numberBlocks function blocks names).1 others).2.2 = [] := by
  induction blocks generalizing names others with
  | nil => rfl
  | cons block rest restIH =>
    have isWellFormed := wellFormed block (List.mem_cons_self ..)
    have wellFormedRest := fun other member => wellFormed other (List.mem_cons_of_mem block member)
    have first := (weigh_numberInstrs_block ⟨function, block.name, passName⟩ isWellFormed names).1
    have lighter := (weigh_numberBlocks function wellFormedRest
      (numberInstrs ⟨function, block.name, passName⟩ block.instrs { names }).2.1.names).1
    rw [numberBlocks_cons] at steady ⊢
    dsimp only at steady ⊢
    rw [List.flatMap_cons, List.flatMap_cons, weigh_append, weigh_append] at steady
    dsimp only at steady
    rw [numberBlocks_cons]
    dsimp only
    rw [log_numberInstrs_again _ isWellFormed (once block (List.mem_cons_self ..)) names others
      (by omega), List.nil_append]
    exact restIH wellFormedRest (fun other member => once other (List.mem_cons_of_mem _ member)) _ _
      (by omega)

variable {graph : FlowGraph}

/-- Local numbering makes a flow graph no heavier, and changes nothing that it does not report. -/
theorem weigh_run (wellFormed : graph.WellFormed) :
    weigh (run graph).1.instrs ≤ weigh graph.instrs ∧ ((run graph).2 = [] → (run graph).1 = graph) := by
  obtain ⟨lighter, same⟩ := weigh_numberBlocks graph.name wellFormed.blocks (.ofGraph graph)
  refine ⟨lighter, fun quiet => ?_⟩
  rw [run]
  dsimp only
  rw [same quiet]

/-- After local numbering every block writes each variable once. -/
theorem writesOnce_run (wellFormed : graph.WellFormed) :
    ∀ block ∈ (run graph).1.blocks, WritesOnce block := by
  have images : List.Forall₂ (Image graph.name (· ∈ (NameSupply.ofGraph graph).taken))
      graph.blocks (run graph).1.blocks := forall₂_image fun _ => id
  intro image member
  obtain ⟨block, inside, isImage⟩ := exists_of_forall₂_right images member
  have isWellFormed := wellFormed.blocks block inside
  obtain ⟨names, taken, _, _, _, _, body_eq⟩ := isImage.exists_body isWellFormed
  rw [WritesOnce, body_eq]
  refine (nodup_numberInstrs _ isWellFormed.plain_body fun dest isDest => ?_).1
  obtain ⟨instr, inBody, isDest⟩ := List.mem_filterMap.1 isDest
  exact taken dest (NameSupply.taken_of_dest inside (Block.mem_of_mem_body inBody) isDest)

/-- Local numbering that makes code neither lighter nor renames anything has nothing to do when it
is run again. -/
theorem run_again (wellFormed : graph.WellFormed) (once : ∀ block ∈ graph.blocks, WritesOnce block)
    (steady : weigh (run graph).1.instrs = weigh graph.instrs) : (run (run graph).1).2 = [] :=
  log_numberBlocks_again graph.name wellFormed.blocks once _ _ steady

end LocalNumbering

end Midend
