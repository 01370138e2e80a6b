import Midend.Proofs.Fresh
import Midend.Proofs.Semantics.Simulation
import Midend.Proofs.Ssa.Kept
import Midend.Proofs.Values.Bodies
import Midend.Values.Local

/-! # Correctness of local value numbering

Within a block some variables are kept under fresh names; at its end each variable has its own name
again, so blocks can be compared by the variables that the flow graph mentions
(`LocalNumbering.refines_run`). In single assignment nothing is renamed, and single assignment is
kept (`LocalNumbering.inSsa_run`). -/

namespace Midend

namespace LocalNumbering

/-! ## One instruction -/

/-- Numbers one instruction that is no merge. -/
def numberOne (place : Place) (instr : Instr) (later : List Instr) (state : State) : Instr × State :=
  let written := renameWrite place (instr.mapArgs fun arg => state.renamed.getD arg arg) later state
  let numbered := Numbering.numberInstr place written.2.1.table written.1
  (numbered.1, { written.2.1 with table := numbered.2.1 })

/-- Numbering a list starts with its first instruction. -/
theorem numberInstrs_cons (place : Place) {instr : Instr} (notPhi : instr.isPhi = false)
    (rest : List Instr) (state : State) :
    (numberInstrs place (instr :: rest) state).1 = (numberOne place instr rest state).1 ::
        (numberInstrs place rest (numberOne place instr rest state).2).1 ∧
      (numberInstrs place (instr :: rest) state).2.1 =
        (numberInstrs place rest (numberOne place instr rest state).2).2.1 := by
  rw [numberInstrs, if_neg (by simp [notPhi])]
  exact ⟨rfl, rfl⟩

/-- The values after leading merges. -/
def definePhis (phis : List Instr) (table : ValueTable) : ValueTable :=
  (phis.filterMap Instr.dest?).foldl .define table

/-- At first only leading merges have values. -/
theorem mem_of_bound_definePhis {phis : List Instr} {var : String}
    (isBound : (definePhis phis {}).Bound var) : var ∈ phis.filterMap Instr.dest? := by
  rcases ValueTable.bound_of_defined isBound with ⟨number, found⟩ | isPhi
  · simp [ValueTable.numberOf?] at found
  · exact isPhi

/-- Leading merges are kept. -/
theorem numberInstrs_phis (place : Place) {phis : List Instr}
    (merges : ∀ phi ∈ phis, phi.isPhi = true) (rest : List Instr) (state : State) :
    (numberInstrs place (phis ++ rest) state).1 = phis ++ (numberInstrs place rest
        { state with table := definePhis phis state.table }).1 ∧
      (numberInstrs place (phis ++ rest) state).2.1 = (numberInstrs place rest
        { state with table := definePhis phis state.table }).2.1 := by
  induction phis generalizing state with
  | nil => exact ⟨rfl, rfl⟩
  | cons phi phis phisIH =>
    have isPhi := merges phi (List.mem_cons_self ..)
    obtain ⟨instrs, last⟩ := phisIH (fun other member => merges other (List.mem_cons_of_mem _ member))
      { state with table := phi.dest?.toList.foldl .define state.table }
    have tables : definePhis (phi :: phis) state.table =
        definePhis phis (phi.dest?.toList.foldl .define state.table) := by
      rw [definePhis, definePhis, List.filterMap_cons]
      cases phi.dest? <;> rfl
    rw [List.cons_append, numberInstrs, if_pos isPhi, tables]
    exact ⟨by rw [List.cons_append, ← instrs], last⟩

/-- The variable that is written gets a fresh name if it is written again, and its own otherwise. -/
theorem renameWrite_cases (place : Place) (instr : Instr) (later : List Instr) (state : State) :
    (instr.dest? = none ∧ (renameWrite place instr later state).1 = instr ∧
      (renameWrite place instr later state).2.1 = state) ∨
    (∃ dest, instr.dest? = some dest ∧ dest ∈ later.filterMap Instr.dest? ∧
      (renameWrite place instr later state).1 =
        instr.mapDest (fun _ => (state.names.fresh dest).1) ∧
      (renameWrite place instr later state).2.1 = { state with
        renamed := state.renamed.insert dest (state.names.fresh dest).1
        names := (state.names.fresh dest).2 }) ∨
    (∃ dest, instr.dest? = some dest ∧ dest ∉ later.filterMap Instr.dest? ∧
      (renameWrite place instr later state).1 = instr ∧
      (renameWrite place instr later state).2.1 =
        { state with renamed := state.renamed.erase dest }) := by
  have again : ∀ dest, (later.any fun other => decide (other.dest? = some dest)) = true ↔
      dest ∈ later.filterMap Instr.dest? := by simp
  unfold renameWrite
  split
  · rename_i isNone
    exact .inl ⟨isNone, rfl, rfl⟩
  · rename_i dest isDest
    split
    · rename_i written
      exact .inr (.inl ⟨dest, isDest, (again dest).1 written, rfl, rfl⟩)
    · rename_i last
      exact .inr (.inr ⟨dest, isDest, fun written => last ((again dest).2 written), rfl, rfl⟩)

/-- A numbered instruction is of the kind of the old one. -/
theorem sameShape_numberOne (place : Place) {instr : Instr} (checked : instr.Checked)
    (notLabel : instr.isLabel = false) (notPhi : instr.isPhi = false) (later : List Instr)
    (state : State) : Instr.SameShape instr (numberOne place instr later state).1 := by
  have renamed := Instr.SameShape.mapArgs instr fun arg => state.renamed.getD arg arg
  have written : Instr.SameShape (instr.mapArgs fun arg => state.renamed.getD arg arg)
      (renameWrite place (instr.mapArgs fun arg => state.renamed.getD arg arg) later state).1 := by
    rcases renameWrite_cases place (instr.mapArgs fun arg => state.renamed.getD arg arg) later
      state with ⟨_, isInstr, _⟩ | ⟨_, _, _, isInstr, _⟩ | ⟨_, _, _, isInstr, _⟩
    · rw [isInstr]
      exact .refl _
    · rw [isInstr]
      exact .mapDest _ _
    · rw [isInstr]
      exact .refl _
  have both := renamed.trans written
  exact both.trans (Numbering.recast_numberInstr place _ (both.checked checked)
    (both.isLabel_eq.trans notLabel) (both.isPhi_eq.trans notPhi)).toSameShape

/-- Numbered instructions are of the kinds of the old ones. -/
theorem forall₂_sameShape (place : Place) {instrs : List Instr}
    (plain : ∀ instr ∈ instrs, instr.Checked ∧ instr.isLabel = false ∧ instr.isPhi = false)
    (state : State) : List.Forall₂ Instr.SameShape instrs (numberInstrs place instrs state).1 := by
  induction instrs generalizing state with
  | nil => exact .nil
  | cons instr rest restIH =>
    obtain ⟨checked, notLabel, notPhi⟩ := plain instr (List.mem_cons_self ..)
    rw [(numberInstrs_cons place notPhi rest state).1]
    exact .cons (sameShape_numberOne place checked notLabel notPhi rest state)
      (restIH (fun other member => plain other (List.mem_cons_of_mem _ member)) _)

/-! ## Names -/

/-- The names in use while a block is numbered: fresh names are taken but not among the old ones, and
a variable has one only while it is still to be written. -/
structure Tracks (base : String → Prop) (later : List Instr) (state : State) : Prop where
  /-- The old names are taken. -/
  taken : ∀ name, base name → name ∈ state.names.taken
  /-- Fresh names are taken and new. -/
  fresh : ∀ var name, state.renamed.get? var = some name →
    ¬base name ∧ name ∈ state.names.taken
  /-- A variable with a fresh name is written again. -/
  pending : ∀ var name, state.renamed.get? var = some name → var ∈ later.filterMap Instr.dest?

/-- Variables hold the same values, some of them under fresh names. -/
def Agree (base : String → Prop) (renamed : SortedMap String String) (env mirror : Env) : Prop :=
  ∀ var, base var → ∀ value, env var = some value → mirror (renamed.getD var var) = some value

/-- The name in force of a variable. -/
theorem getD_cases (renamed : SortedMap String String) (var : String) :
    (renamed.get? var = none ∧ renamed.getD var var = var) ∨
      ∃ name, renamed.get? var = some name ∧ renamed.getD var var = name := by
  unfold SortedMap.getD
  cases renamed.get? var with
  | none => exact .inl ⟨rfl, rfl⟩
  | some name => exact .inr ⟨name, rfl, rfl⟩

section Writes

variable {base : String → Prop} {instr : Instr} {later : List Instr} {state : State} {dest : String}

/-- A variable with a fresh name that is not written now is written later. -/
theorem Tracks.pending_later (tracks : Tracks base (instr :: later) state)
    (isDest : instr.dest? = some dest) {var name : String}
    (found : state.renamed.get? var = some name) (apart : var ≠ dest) :
    var ∈ later.filterMap Instr.dest? := by
  have member := tracks.pending var name found
  rw [List.filterMap_cons_some isDest] at member
  exact (List.mem_cons.1 member).resolve_left apart

/-- A write of a variable that is written again puts a fresh name in force. -/
theorem Tracks.fresh_write (tracks : Tracks base (instr :: later) state)
    (isDest : instr.dest? = some dest) (again : dest ∈ later.filterMap Instr.dest?) :
    Tracks base later { state with
      renamed := state.renamed.insert dest (state.names.fresh dest).1
      names := (state.names.fresh dest).2 } := by
  obtain ⟨_, notTaken, mem_iff⟩ := state.names.fresh_spec dest
  refine ⟨fun name isBase => (mem_iff name).2 (.inr (tracks.taken name isBase)),
    fun var name found => ?_, fun var name found => ?_⟩
  · rw [SortedMap.get?_insert_eq] at found
    split at found
    · obtain rfl := Option.some.inj found
      exact ⟨fun isBase => notTaken (tracks.taken _ isBase), (mem_iff _).2 (.inl rfl)⟩
    · obtain ⟨isNew, isTaken⟩ := tracks.fresh var name found
      exact ⟨isNew, (mem_iff name).2 (.inr isTaken)⟩
  · rw [SortedMap.get?_insert_eq] at found
    split at found
    · rename_i same
      exact same ▸ again
    · rename_i apart
      exact tracks.pending_later isDest found apart

/-- The last write of a variable puts its own name back in force. -/
theorem Tracks.last_write (tracks : Tracks base (instr :: later) state)
    (isDest : instr.dest? = some dest) :
    Tracks base later { state with renamed := state.renamed.erase dest } := by
  refine ⟨tracks.taken, fun var name found => ?_, fun var name found => ?_⟩
  · rw [SortedMap.get?_erase_eq] at found
    split at found
    · cases found
    · exact tracks.fresh var name found
  · rw [SortedMap.get?_erase_eq] at found
    split at found
    · cases found
    · rename_i apart
      exact tracks.pending_later isDest found apart

/-- No old variable goes by a name that is neither taken nor old. -/
theorem Tracks.getD_ne_of_fresh (tracks : Tracks base (instr :: later) state) {var name : String}
    (isBase : base var) (notTaken : name ∉ state.names.taken) :
    state.renamed.getD var var ≠ name := by
  rcases getD_cases state.renamed var with ⟨_, same⟩ | ⟨other, found, same⟩
  · rw [same]
    rintro rfl
    exact notTaken (tracks.taken _ isBase)
  · rw [same]
    rintro rfl
    exact notTaken (tracks.fresh var _ found).2

/-- No other variable goes by the own name of an old variable. -/
theorem Tracks.getD_ne_of_base (tracks : Tracks base (instr :: later) state) {var name : String}
    (isBase : base name) (apart : var ≠ name) : state.renamed.getD var var ≠ name := by
  rcases getD_cases state.renamed var with ⟨_, same⟩ | ⟨other, found, same⟩
  · rwa [same]
  · rw [same]
    rintro rfl
    exact (tracks.fresh var _ found).1 isBase

/-- The variable that is written goes by a name that no other variable goes by. -/
theorem renameWrite_spec (place : Place) (tracks : Tracks base (instr :: later) state)
    (isDest : instr.dest? = some dest) (isBase : base dest) (changed : Instr)
    (isChanged : changed.dest? = instr.dest?) :
    Tracks base later (renameWrite place changed later state).2.1 ∧
      (renameWrite place changed later state).1.dest? =
        some ((renameWrite place changed later state).2.1.renamed.getD dest dest) ∧
      (∀ var, base var → var ≠ dest →
        (renameWrite place changed later state).2.1.renamed.getD var var =
          state.renamed.getD var var ∧
        state.renamed.getD var var ≠
          (renameWrite place changed later state).2.1.renamed.getD dest dest) := by
  have isDestChanged : changed.dest? = some dest := isChanged.trans isDest
  rcases renameWrite_cases place changed later state with ⟨isNone, _⟩ |
    ⟨other, isOther, again, isInstr, isState⟩ | ⟨other, isOther, last, isInstr, isState⟩
  · rw [isDestChanged] at isNone
    cases isNone
  · obtain rfl := Option.some.inj (isDestChanged.symm.trans isOther)
    obtain ⟨_, notTaken, _⟩ := state.names.fresh_spec dest
    have atDest : (state.renamed.insert dest (state.names.fresh dest).1).getD dest dest =
        (state.names.fresh dest).1 := by
      simp [SortedMap.getD]
    rw [isInstr, isState]
    refine ⟨tracks.fresh_write isDest again, by simp [isDestChanged, atDest],
      fun var isBase apart => ⟨by simp [SortedMap.getD, apart], ?_⟩⟩
    rw [atDest]
    exact tracks.getD_ne_of_fresh isBase notTaken
  · obtain rfl := Option.some.inj (isDestChanged.symm.trans isOther)
    have atDest : (state.renamed.erase dest).getD dest dest = dest := by
      simp [SortedMap.getD]
    rw [isInstr, isState]
    refine ⟨tracks.last_write isDest, by rw [isDestChanged, atDest],
      fun var _ apart => ⟨by simp [SortedMap.getD, apart], ?_⟩⟩
    rw [atDest]
    exact tracks.getD_ne_of_base isBase apart

end Writes

/-- Renaming what is written changes neither what is read nor the table. -/
theorem exists_mapDest_renameWrite (place : Place) (instr : Instr) (later : List Instr)
    (state : State) : (∃ change, (renameWrite place instr later state).1 = instr.mapDest change) ∧
      (renameWrite place instr later state).2.1.table = state.table := by
  rcases renameWrite_cases place instr later state with ⟨_, isInstr, isState⟩ |
    ⟨_, _, _, isInstr, isState⟩ | ⟨_, _, _, isInstr, isState⟩
  · exact ⟨⟨id, by rw [isInstr, Instr.mapDest_id]⟩, by rw [isState]⟩
  · exact ⟨⟨_, isInstr⟩, by rw [isState]⟩
  · exact ⟨⟨id, by rw [isInstr, Instr.mapDest_id]⟩, by rw [isState]⟩

/-! ## Runs -/

section Runs

variable {floats : FloatOps} {calls : Calls} {base : String → Prop}

/-- A numbered instruction does what the old one does, under the names in force. -/
theorem numberOne_sound (place : Place) {instr : Instr} {later : List Instr} {state : State}
    (tracks : Tracks base (instr :: later) state) {env mirror : Env} {val : Nat → Option Value}
    (agree : Agree base state.renamed env mirror)
    (sound : state.table.Sound ⟨floats, false⟩ val mirror) (checked : instr.Checked)
    (notLabel : instr.isLabel = false) (notPhi : instr.isPhi = false)
    (args : ∀ arg ∈ instr.args, base arg) (dest : ∀ dest, instr.dest? = some dest → base dest)
    {lines : List String} {next : Midend.State} {control : Control}
    (ran : instr.exec ⟨floats, false⟩ calls ⟨env, lines⟩ = some (next, control)) :
    ∃ last other, (numberOne place instr later state).1.exec ⟨floats, false⟩ calls ⟨mirror, lines⟩ =
        some (⟨last, next.lines⟩, control) ∧
      Tracks base later (numberOne place instr later state).2 ∧
      Agree base (numberOne place instr later state).2.renamed next.env last ∧
      (numberOne place instr later state).2.table.Sound ⟨floats, false⟩ other last := by
  dsimp only [numberOne]
  generalize isRenamed : instr.mapArgs (fun arg => state.renamed.getD arg arg) = renamed
  have renamedDest : renamed.dest? = instr.dest? := by rw [← isRenamed, Instr.dest?_mapArgs]
  obtain ⟨⟨change, isWritten⟩, sameTable⟩ := exists_mapDest_renameWrite place renamed later state
  have shape : Instr.SameShape instr (renameWrite place renamed later state).1 := by
    rw [isWritten, ← isRenamed]
    exact (Instr.SameShape.mapArgs _ _).trans (.mapDest _ _)
  -- The renamed instruction runs alike, and writes under the name in force.
  obtain ⟨effect, isNext, isControl, hasValue, ranWritten⟩ := Instr.exec_of_perform_eq
    (renameWrite place renamed later state).1 mirror ran
    (fun values => by
      rw [isWritten, Instr.mapDest, Action.perform_mapDest, ← isRenamed, Instr.perform_mapArgs])
    (fun values read => by
      rw [isWritten, Instr.reads_mapDest, ← isRenamed, Instr.reads_mapArgs]
      refine Env.read_map (fun name member value held => agree name (args name ?_) value held) read
      rwa [← Instr.reads_eq_args checked])
  rw [← sameTable] at sound
  obtain ⟨other, _, soundAfter, ranImage⟩ := Numbering.numberInstr_sound place sound
    (shape.checked checked) (shape.isLabel_eq.trans notLabel) (shape.isPhi_eq.trans notPhi) ranWritten
  refine ⟨(Midend.State.after ⟨mirror, lines⟩
    (renameWrite place renamed later state).1.dest? effect).env, other, ?_, ?_⟩
  · rw [isNext]
    exact ranImage
  cases isDest : instr.dest? with
  | none =>
    have noDest : renamed.dest? = none := renamedDest.trans isDest
    rcases renameWrite_cases place renamed later state with ⟨_, isInstr, isState⟩ |
      ⟨_, isSome, _⟩ | ⟨_, isSome, _⟩
    · refine ⟨?_, ?_, soundAfter⟩
      · rw [isState]
        refine ⟨tracks.taken, tracks.fresh, fun var name found => ?_⟩
        have member := tracks.pending var name found
        rwa [List.filterMap_cons_none isDest] at member
      · rw [isNext, isState, isInstr, isDest, noDest]
        exact agree
    · rw [noDest] at isSome
      cases isSome
    · rw [noDest] at isSome
      cases isSome
  | some written =>
    obtain ⟨tracked, isName, others⟩ := renameWrite_spec place tracks isDest (dest written isDest)
      renamed renamedDest
    rw [isDest, Option.isSome_some] at hasValue
    obtain ⟨value, isValue⟩ := Option.isSome_iff_exists.1 hasValue
    refine ⟨⟨tracked.taken, tracked.fresh, tracked.pending⟩, ?_, soundAfter⟩
    rw [isNext, isDest, isName]
    intro var isBase held
    simp only [Midend.State.after, isValue]
    by_cases same : var = written
    · rw [same, Env.set_self, Env.set_self]
      exact id
    · obtain ⟨unchanged, apart⟩ := others var isBase same
      rw [Env.set_of_ne _ _ same, unchanged, Env.set_of_ne _ _ apart]
      exact agree var isBase held

/-- Once nothing is left to write, every variable goes by its own name. -/
theorem Tracks.agree_of_done {state : State} (tracks : Tracks base [] state) {env mirror : Env}
    (agree : Agree base state.renamed env mirror) :
    ∀ var, base var → ∀ value, env var = some value → mirror var = some value := by
  intro var isBase value held
  have atName := agree var isBase value held
  rcases getD_cases state.renamed var with ⟨_, same⟩ | ⟨name, found, _⟩
  · rwa [same] at atName
  · cases tracks.pending var name found

/-- Numbered instructions do what the old ones do; at the end of a block every variable goes by its
own name. -/
theorem numberInstrs_sound (place : Place) {instrs : List Instr}
    (plain : ∀ instr ∈ instrs, instr.Checked ∧ instr.isLabel = false ∧ instr.isPhi = false)
    (straight : ∀ instr ∈ instrs.dropLast, instr.isTerminator = false)
    (args : ∀ instr ∈ instrs, ∀ arg ∈ instr.args, base arg)
    (dests : ∀ instr ∈ instrs, ∀ dest, instr.dest? = some dest → base dest)
    {state : State} (tracks : Tracks base instrs state) {env mirror : Env}
    {val : Nat → Option Value} (agree : Agree base state.renamed env mirror)
    (sound : state.table.Sound ⟨floats, false⟩ val mirror) {lines : List String}
    {next : Midend.State} {control : Control}
    (ran : Instr.execAll ⟨floats, false⟩ calls instrs ⟨env, lines⟩ = some (next, control)) :
    ∃ last, Instr.execAll ⟨floats, false⟩ calls (numberInstrs place instrs state).1
        ⟨mirror, lines⟩ = some (⟨last, next.lines⟩, control) ∧
      ∀ var, base var → ∀ value, next.env var = some value → last var = some value := by
  induction instrs generalizing state env mirror val lines with
  | nil =>
    obtain ⟨rfl, rfl⟩ := Prod.mk.inj (Option.some.inj ran)
    exact ⟨mirror, rfl, tracks.agree_of_done agree⟩
  | cons instr rest restIH =>
    obtain ⟨checked, notLabel, notPhi⟩ := plain instr (List.mem_cons_self ..)
    rw [Instr.execAll_cons] at ran
    obtain ⟨⟨middle, goes⟩, first, ran⟩ := Option.bind_eq_some_iff.1 ran
    obtain ⟨middleMirror, other, ranImage, tracked, agreed, soundAfter⟩ := numberOne_sound place tracks
      agree sound checked notLabel notPhi (args instr (List.mem_cons_self ..))
      (dests instr (List.mem_cons_self ..)) first
    rw [(numberInstrs_cons place notPhi rest state).1, Instr.execAll_cons, ranImage,
      Option.bind_some]
    by_cases goesOn : goes = .next
    · rw [if_pos goesOn] at ran ⊢
      exact restIH (fun other member => plain other (List.mem_cons_of_mem _ member))
        (Instr.straight_tail straight)
        (fun other member => args other (List.mem_cons_of_mem _ member))
        (fun other member => dests other (List.mem_cons_of_mem _ member)) tracked agreed soundAfter ran
    · obtain rfl := Instr.eq_nil_of_stops straight first goesOn
      rw [if_neg goesOn] at ran ⊢
      obtain ⟨rfl, rfl⟩ := Prod.mk.inj (Option.some.inj ran)
      exact ⟨middleMirror, rfl, tracked.agree_of_done agreed⟩

end Runs

/-! ## Blocks -/

/-- Taken names stay taken. -/
theorem taken_numberOne (place : Place) (instr : Instr) (later : List Instr) {state : State}
    {name : String} (isTaken : name ∈ state.names.taken) :
    name ∈ (numberOne place instr later state).2.names.taken := by
  change name ∈ (renameWrite place (instr.mapArgs fun arg => state.renamed.getD arg arg) later
    state).2.1.names.taken
  rcases renameWrite_cases place (instr.mapArgs fun arg => state.renamed.getD arg arg) later
    state with ⟨_, _, isState⟩ | ⟨dest, _, _, _, isState⟩ | ⟨_, _, _, _, isState⟩
  · rwa [isState]
  · rw [isState]
    exact ((state.names.fresh_spec dest).2.2 name).2 (.inr isTaken)
  · rwa [isState]

/-- Taken names stay taken while a block is numbered. -/
theorem taken_numberInstrs (place : Place) (instrs : List Instr) {state : State} {name : String}
    (isTaken : name ∈ state.names.taken) :
    name ∈ (numberInstrs place instrs state).2.1.names.taken := by
  induction instrs generalizing state with
  | nil => exact isTaken
  | cons instr rest restIH =>
    cases isPhi : instr.isPhi with
    | false =>
      rw [(numberInstrs_cons place isPhi rest state).2]
      exact restIH (taken_numberOne place instr rest isTaken)
    | true =>
      rw [numberInstrs, if_pos isPhi]
      exact restIH isTaken

/-- A block that was numbered on its own, with all names of the flow graph taken. -/
def Image (function : String) (base : String → Prop) (block image : Block) : Prop :=
  ∃ names : NameSupply, (∀ name, base name → name ∈ names.taken) ∧ image = { block with
    instrs := (numberInstrs ⟨function, block.name, passName⟩ block.instrs { names }).1 }

/-- Every block is numbered on its own. -/
theorem forall₂_image {function : String} {base : String → Prop} {blocks : List Block}
    {names : NameSupply} (taken : ∀ name, base name → name ∈ names.taken) :
    List.Forall₂ (Image function base) blocks (numberBlocks function blocks names).1 := by
  induction blocks generalizing names with
  | nil => exact .nil
  | cons block rest restIH =>
    refine .cons ⟨names, taken, rfl⟩ (restIH fun name isBase => ?_)
    exact taken_numberInstrs _ _ (taken name isBase)

/-- What is in a block that was numbered: its merges, and a body that is numbered with the values of
the merges defined. -/
theorem Image.exists_body {function : String} {base : String → Prop} {block image : Block}
    (isImage : Image function base block image) (wellFormed : block.WellFormed) :
    ∃ names : NameSupply, (∀ name, base name → name ∈ names.taken) ∧ image.name = block.name ∧
      image.successors = block.successors ∧ image.WellFormed ∧ image.phis = block.phis ∧
      image.body = (numberInstrs ⟨function, block.name, passName⟩ block.body
        { names, table := definePhis block.phis {} }).1 := by
  obtain ⟨names, taken, isImage⟩ := isImage
  have inPhis : ∀ phi ∈ block.phis, phi.isPhi = true ∧ phi.Checked := fun phi member =>
    ⟨Block.isPhi_of_mem_phis member, wellFormed.checked phi (Block.mem_of_mem_phis member)⟩
  have split : image.instrs = block.phis ++ ([] ++ (numberInstrs
      ⟨function, block.name, passName⟩ block.body { names, table := definePhis block.phis {} }).1) := by
    rw [List.nil_append, isImage]
    have parts := (numberInstrs_phis ⟨function, block.name, passName⟩
      (fun phi member => (inPhis phi member).1) block.body { names }).1
    rwa [block.phis_append_body] at parts
  obtain ⟨successors_eq, isWellFormed, phis_eq, body_eq⟩ := wellFormed.of_sameShape block.phis []
    split inPhis (by simp) (forall₂_sameShape ⟨function, block.name, passName⟩ wellFormed.plain_body _)
  exact ⟨names, taken, by rw [isImage], successors_eq, isWellFormed, phis_eq, body_eq⟩

/-- Local numbering changes neither the names of blocks nor where they lead. -/
theorem recoded_run {graph : FlowGraph} (wellFormed : graph.WellFormed) :
    graph.Recoded (run graph).1 := by
  have images : List.Forall₂ (Image graph.name fun _ => False) graph.blocks (run graph).1.blocks :=
    forall₂_image (by simp)
  refine ⟨rfl, rfl, forall₂_imp_of_mem images fun block member image isImage => ?_⟩
  obtain ⟨_, _, name_eq, successors_eq, isWellFormed, _⟩ :=
    isImage.exists_body (wellFormed.blocks block member)
  exact ⟨name_eq, successors_eq, isWellFormed⟩

/-- Local numbering keeps what a flow graph does. -/
theorem refines_run {graph : FlowGraph} (wellFormed : graph.WellFormed) (floats : FloatOps) :
    graph.Refines ⟨floats, false⟩ (run graph).1 := by
  have images : List.Forall₂ (Image graph.name (· ∈ (NameSupply.ofGraph graph).taken))
      graph.blocks (run graph).1.blocks := forall₂_image fun _ => id
  refine FlowGraph.refines_of_blockwise wellFormed rfl images ?_ (fun _ _ env mirror =>
    ∀ var ∈ (NameSupply.ofGraph graph).taken, ∀ value, env var = some value →
      mirror var = some value) (fun _ _ _ _ _ _ _ _ => id) ?_
  · rintro block image ⟨_, _, rfl⟩
    rfl
  · intro calls block image source env mirror lines next control member isImage agree ran
    have isWellFormed := wellFormed.blocks block member
    obtain ⟨names, taken, _, _, _, phis_eq, body_eq⟩ := isImage.exists_body isWellFormed
    obtain ⟨entered, isEntered, ran⟩ := Block.exec_eq_some_iff.1 ran
    obtain ⟨start, isStart, agreed⟩ := Instr.enter_of_agree agree
      (fun phi isPhi arg => NameSupply.taken_of_arg member (Block.mem_of_mem_phis isPhi)) isEntered
    obtain ⟨val, sound⟩ := (ValueTable.Sound.empty ⟨floats, false⟩ (fun _ => none) start).foldl_define
      (block.phis.filterMap Instr.dest?)
    have tracks : Tracks (· ∈ (NameSupply.ofGraph graph).taken) block.body
        { names, table := definePhis block.phis {} } :=
      ⟨taken, fun var name found => by simp at found, fun var name found => by simp at found⟩
    obtain ⟨last, ranImage, agreedLast⟩ := numberInstrs_sound ⟨graph.name, block.name, passName⟩
      isWellFormed.plain_body isWellFormed.straight_body
      (fun instr inside arg => NameSupply.taken_of_arg member (Block.mem_of_mem_body inside))
      (fun instr inside dest => NameSupply.taken_of_dest member (Block.mem_of_mem_body inside)) tracks
      (fun var isTaken value held => agreed var isTaken value held) sound ran
    exact ⟨last, Block.exec_eq_some_iff.2 ⟨start, by rwa [phis_eq], by rwa [body_eq]⟩,
      fun _ _ _ => agreedLast⟩

/-! ## Single assignment -/

/-- In single assignment nothing is renamed: an instruction is numbered as it is. -/
theorem numberOne_of_once (place : Place) {instr : Instr} {later : List Instr} {state : State}
    (unrenamed : ∀ var, state.renamed.get? var = none)
    (once : ∀ dest, instr.dest? = some dest → dest ∉ later.filterMap Instr.dest?) :
    (numberOne place instr later state).1 = (Numbering.numberInstr place state.table instr).1 ∧
      (numberOne place instr later state).2.table =
        (Numbering.numberInstr place state.table instr).2.1 ∧
      ∀ var, (numberOne place instr later state).2.renamed.get? var = none := by
  have sameArgs : instr.mapArgs (fun arg => state.renamed.getD arg arg) = instr := by
    have isId : (fun arg => state.renamed.getD arg arg) = id := by
      funext arg
      simp [SortedMap.getD, unrenamed]
    rw [isId, Instr.mapArgs_id]
  rw [numberOne, sameArgs]
  rcases renameWrite_cases place instr later state with ⟨_, isInstr, isState⟩ |
    ⟨dest, isDest, again, _⟩ | ⟨dest, _, _, isInstr, isState⟩
  · rw [isInstr, isState]
    exact ⟨rfl, rfl, unrenamed⟩
  · exact absurd again (once dest isDest)
  · rw [isInstr, isState]
    refine ⟨rfl, rfl, fun var => ?_⟩
    simp [unrenamed]

/-- In single assignment the instructions of a block are numbered as they are. -/
theorem numberInstrs_of_once (place : Place) {instrs : List Instr}
    (notPhi : ∀ instr ∈ instrs, instr.isPhi = false) (nodup : (instrs.filterMap Instr.dest?).Nodup)
    (state : State) (unrenamed : ∀ var, state.renamed.get? var = none) :
    (numberInstrs place instrs state).1 =
      (GlobalNumbering.numberAll (Numbering.numberInstr place) instrs state.table).1 := by
  induction instrs generalizing state with
  | nil => rfl
  | cons instr later laterIH =>
    have once : ∀ dest, instr.dest? = some dest → dest ∉ later.filterMap Instr.dest? := by
      intro dest isDest
      rw [List.filterMap_cons_some isDest] at nodup
      exact (List.nodup_cons.1 nodup).1
    have nodupLater : (later.filterMap Instr.dest?).Nodup :=
      nodup.sublist ((List.sublist_cons_self instr later).filterMap _)
    obtain ⟨isImage, isTable, stillUnrenamed⟩ := numberOne_of_once place unrenamed once
    rw [(numberInstrs_cons place (notPhi instr (List.mem_cons_self ..)) later state).1,
      (GlobalNumbering.numberAll_cons ..).1, isImage,
      laterIH (fun other member => notPhi other (List.mem_cons_of_mem _ member)) nodupLater _
        stillUnrenamed, isTable]

/-- Local numbering keeps single assignment. -/
theorem inSsa_run {graph : FlowGraph} (wellFormed : graph.WellFormed) (inSsa : Ssa.InSsa graph) :
    Ssa.InSsa (run graph).1 := by
  have images : List.Forall₂ (Image graph.name fun _ => False) graph.blocks (run graph).1.blocks :=
    forall₂_image (by simp)
  refine inSsa.of_kept (recoded_run wellFormed)
    (forall₂_imp_of_mem images fun block member image isImage => ?_)
  have isWellFormed := wellFormed.blocks block member
  obtain ⟨names, _, _, _, _, phis_eq, body_eq⟩ := isImage.exists_body isWellFormed
  have nodup := inSsa.nodup_body member
  have numbered := GlobalNumbering.numberedBody ⟨graph.name, block.name, passName⟩ inSsa member
    block.phis_append_body.symm isWellFormed.plain_body (definePhis block.phis {})
    fun var isBound => .inr (.inl (mem_of_bound_definePhis isBound))
  rw [numberInstrs_of_once _ isWellFormed.phis_first nodup _
    (fun var => by simp)] at body_eq
  -- Every variable is written once, so none is renamed and the body is numbered as it stands.
  rw [← body_eq] at numbered
  refine ⟨?_, fun phi isPhi => ?_, fun before instr rest split notPhi arg isArg => ?_⟩
  · have same : image.defs = block.defs := by
      rw [Block.defs, Block.defs, ← image.phis_append_body, ← block.phis_append_body, phis_eq,
        List.filterMap_append, List.filterMap_append, numbered.dests_eq]
    rw [same]
  · rw [phis_eq] at isPhi
    exact ⟨phi, isPhi, rfl, rfl, inSsa.phi_available block member phi isPhi⟩
  · obtain ⟨middle, rfl, body_split⟩ := Block.exists_body_split split notPhi
    rw [phis_eq]
    exact ⟨block.phis ++ middle, numbered.args middle instr rest body_split arg isArg,
      fun inside _ => inside⟩

end LocalNumbering

end Midend
