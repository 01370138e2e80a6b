import Midend.Proofs.Names
import Midend.Proofs.Values.Local
import Midend.Proofs.Values.Visits

/-! # Names of numbered values

Numbering replaces variables by others that have numbers, so a tame flow graph stays tame, and it
replaces instructions one by one (`GlobalNumbering.modest_run`, `LocalNumbering.modest_run`). -/

namespace Midend

namespace ValueTable

/-- Only lasting variables have numbers. -/
def Lasting (table : ValueTable) : Prop := ∀ var, table.Bound var → Midend.Lasting var

namespace Lasting

variable {table : ValueTable}

/-- At first no variable has a number. -/
theorem empty : ({} : ValueTable).Lasting := by
  rintro var ⟨number, found⟩
  simp [numberOf?] at found

/-- A lasting variable gets a number. -/
theorem bind (lasting : table.Lasting) {other : ValueTable} {dest : String} (number : Nat)
    (same : ∀ var, other.numberOf? var = table.numberOf? var) (isLasting : Midend.Lasting dest) :
    (other.bind dest number).Lasting := by
  rintro var ⟨found, isFound⟩
  rw [numberOf?_bind] at isFound
  split at isFound
  · rename_i isDest
    exact isDest ▸ isLasting
  · exact lasting var ⟨found, by rw [← same, isFound]⟩

/-- Lasting variables get numbers. -/
theorem foldl_define (lasting : table.Lasting) {vars : List String}
    (areLasting : ∀ var ∈ vars, Midend.Lasting var) : (vars.foldl define table).Lasting :=
  fun var isBound => (bound_of_defined isBound).elim (lasting var) (areLasting var)

/-- The variable that stands for a number is lasting. -/
theorem canonical? (lasting : table.Lasting) {number : Nat} {var : String}
    (found : table.canonical? number = some var) : Midend.Lasting var :=
  lasting var ⟨number, (numberOf?_of_canonical? found).1⟩

end Lasting

end ValueTable

namespace Numbering

/-- Canonical arguments are lasting. -/
theorem lasting_canonicalizeArgs (place : Place) {args : List String} {table : ValueTable}
    (lasting : table.Lasting) (areLasting : ∀ arg ∈ args, Lasting arg) :
    (canonicalizeArgs place args table).2.1.Lasting := fun var isBound =>
  ((canonicalizeArgs_spec place args table).1.origin var isBound).elim (lasting var)
    (areLasting var)

/-- A numbered instruction stays tame. -/
theorem tame_numberInstr (place : Place) {table : ValueTable} {instr : Instr} (tame : instr.Tame)
    (lasting : table.Lasting) :
    (numberInstr place table instr).1.Tame ∧ (numberInstr place table instr).2.1.Lasting := by
  by_cases skipped : instr.isLabel = true ∨ instr.isPhi = true
  · rw [numberInstr_of_skipped place table skipped]
    exact ⟨tame, lasting⟩
  · simp only [not_or, Bool.not_eq_true] at skipped
    have bound := bound_canonicalized place table instr
    have lastingArgs := lasting_canonicalizeArgs place lasting tame.args
    have tameArgs : (canonicalized place table instr).Tame := tame.withArgs fun arg member =>
      lastingArgs arg (bound arg (by rwa [args_canonicalized]))
    rcases numberInstr_cases place table skipped.1 skipped.2 with
      ⟨dest, ty, isDest, _, _, isInstr, isTable⟩ | ⟨_, isInstr, isTable⟩
    · have grows := grows_numberWrite dest ty place bound
      have isLasting := tame.dest dest isDest
      rw [isInstr, isTable]
      refine ⟨?_, lastingArgs.bind _ grows.numberOf? isLasting⟩
      rcases grows.action with same | ⟨literal, isConst⟩ | ⟨source, isBound, isCopy⟩
      · rw [same]
        exact tameArgs
      · exact .const isLasting isConst
      · exact .compute isLasting (by simpa using lastingArgs source isBound) (by decide) isCopy
    · rw [isInstr, isTable]
      exact ⟨tameArgs, lastingArgs⟩

end Numbering

namespace GlobalNumbering

/-! ## Blocks -/

/-- Numbered instructions are as many as before. -/
theorem length_numberAll (step : ValueTable → Instr → Instr × ValueTable × Log)
    (instrs : List Instr) (table : ValueTable) :
    (numberAll step instrs table).1.length = instrs.length := by
  induction instrs generalizing table with
  | nil => rfl
  | cons instr rest restIH => exact congrArg Nat.succ (restIH _)

/-- Instructions stay tame if each one does. -/
theorem tame_numberAll {step : ValueTable → Instr → Instr × ValueTable × Log} {instrs : List Instr}
    (keeps : ∀ instr ∈ instrs, ∀ table : ValueTable, table.Lasting →
      (step table instr).1.Tame ∧ (step table instr).2.1.Lasting)
    {table : ValueTable} (lasting : table.Lasting) :
    (∀ image ∈ (numberAll step instrs table).1, image.Tame) ∧
      (numberAll step instrs table).2.1.Lasting := by
  induction instrs generalizing table with
  | nil => exact ⟨nofun, lasting⟩
  | cons instr rest restIH =>
    obtain ⟨here, next⟩ := keeps instr (List.mem_cons_self ..) table lasting
    obtain ⟨later, last⟩ := restIH (fun other member => keeps other (List.mem_cons_of_mem _ member))
      next
    exact ⟨List.forall_mem_cons.2 ⟨here, later⟩, last⟩

/-- A numbered merge stays tame. -/
theorem tame_numberPhi (place : Place) {table : ValueTable} {phi : Instr} (isPhi : phi.isPhi = true)
    (tame : phi.Tame) (lasting : table.Lasting) :
    (numberPhi place table phi).1.Tame ∧ (numberPhi place table phi).2.1.Lasting := by
  obtain ⟨dest, ty, operands, isAction⟩ := Instr.exists_of_isPhi isPhi
  have isLasting := tame.dest dest (by rw [Instr.dest?, isAction]; rfl)
  rcases numberPhi_cases place table isAction with ⟨isImage, isTable⟩ |
    ⟨numbers, _, isImage, isTable⟩ | ⟨numbers, number, _, _, replaces, isTable⟩
  · rw [isImage, isTable]
    exact ⟨tame, lasting.bind _ (fun _ => rfl) isLasting⟩
  · rw [isImage, isTable]
    exact ⟨tame, lasting.bind _ (fun _ => ValueTable.numberOf?_push ..) isLasting⟩
  · rw [isTable]
    refine ⟨?_, lasting.bind _ (fun _ => rfl) isLasting⟩
    obtain ⟨ty, ⟨literal, _, isImage⟩ | ⟨source, found, isImage⟩⟩ := replaces
    · rw [isImage]
      exact .const isLasting rfl
    · rw [isImage]
      exact .compute isLasting (by simpa using lasting.canonical? found) (by decide) rfl

/-- A numbered block has as many instructions as before, and they stay tame. -/
theorem numberBlock_modest (place : Place) (table : ValueTable) (block : Block) :
    (numberBlock place table block).1.name = block.name ∧
      (numberBlock place table block).1.instrs.length = block.instrs.length ∧
      ((∀ instr ∈ block.instrs, instr.Tame) → table.Lasting →
        (∀ image ∈ (numberBlock place table block).1.instrs, image.Tame) ∧
          (numberBlock place table block).2.1.Lasting) := by
  have merges := length_numberAll (numberPhi place) block.phis table
  have parts := congrArg List.length block.phis_append_body
  unfold numberBlock
  simp only [List.partition_eq_filter_filter]
  generalize isMerged : numberAll (numberPhi place) block.phis table = merged at merges ⊢
  obtain ⟨phis, between, changes⟩ := merged
  have body := length_numberAll (Numbering.numberInstr place) block.body between
  refine ⟨trivial, ?_, fun tame lasting => ?_⟩
  · have split := (List.filter_append_perm Instr.isPhi phis).length_eq
    simp only [List.length_append, Function.comp_def] at *
    omega
  · obtain ⟨tamePhis, lastingBetween⟩ := @tame_numberAll (numberPhi place) block.phis
      (fun phi member table lasting => tame_numberPhi place (Block.isPhi_of_mem_phis member)
        (tame phi (Block.mem_of_mem_phis member)) lasting) table lasting
    obtain ⟨tameBody, lastingOut⟩ := @tame_numberAll (Numbering.numberInstr place) block.body
      (fun instr member table lasting => Numbering.tame_numberInstr place
        (tame instr (Block.mem_of_mem_body member)) lasting) between
      (by rw [isMerged] at lastingBetween; exact lastingBetween)
    rw [isMerged] at tamePhis
    refine ⟨fun image member => ?_, lastingOut⟩
    simp only [List.mem_append, List.mem_filter] at member
    rcases member with (⟨isKept, _⟩ | ⟨isReplaced, _⟩) | inBody
    · exact tamePhis image isKept
    · exact tamePhis image isReplaced
    · exact tameBody image inBody

/-! ## Passing values on -/

/-- A canonical variable is lasting. -/
theorem lasting_canonical {table : ValueTable} (lasting : table.Lasting) {arg : String}
    (isLasting : Lasting arg) : Lasting (canonical table arg) := by
  unfold canonical
  cases isCanonical : (table.numberOf? arg).bind table.canonical? with
  | none => exact isLasting
  | some other =>
    obtain ⟨_, _, found⟩ := Option.bind_eq_some_iff.1 isCanonical
    exact lasting.canonical? found

/-- Merges that receive values are as many as before and stay tame. -/
theorem propagateToPhis_modest (place : Place) (table : ValueTable) (target : String)
    (phis : List Instr) :
    (propagateToPhis place table target phis).1.length = phis.length ∧
      ((∀ phi ∈ phis, phi.Tame) → table.Lasting →
        ∀ image ∈ (propagateToPhis place table target phis).1, image.Tame) := by
  induction phis with
  | nil => exact ⟨rfl, fun _ _ => nofun⟩
  | cons phi rest restIH =>
    refine ⟨congrArg Nat.succ restIH.1, fun tame lasting => List.forall_mem_cons.2
      ⟨?_, restIH.2 (fun other member => tame other (List.mem_cons_of_mem _ member)) lasting⟩⟩
    have areLasting := (tame phi (List.mem_cons_self ..)).args
    refine (tame phi (List.mem_cons_self ..)).withArgs fun arg member => ?_
    rw [propagateInto_eq, List.map_map] at member
    rcases List.mem_append.1 member with taken | isMore
    · obtain ⟨⟨label, old⟩, inside, rfl⟩ := List.mem_map.1 taken
      have isArg := areLasting old (List.of_mem_zip inside).2
      rw [Function.comp_apply]
      dsimp only
      split
      · exact lasting_canonical lasting isArg
      · exact isArg
    · exact areLasting arg (List.mem_of_mem_drop isMore)

/-- A block passes its values on. -/
theorem modest_propagate (place : Place) {table : ValueTable} (targets : List String)
    {graph state : FlowGraph} (lasting : graph.Tame → table.Lasting) (nodup : graph.names.Nodup)
    (modest : graph.Modest state) : graph.Modest (propagate place table targets state).1 := by
  induction targets generalizing state with
  | nil => exact modest
  | cons target rest restIH =>
    rw [propagate]
    split
    · rename_i block found
      have nodupState : state.names.Nodup := by rwa [modest.names_eq]
      obtain ⟨sameLength, tamePhis⟩ := propagateToPhis_modest place table target block.phis
      dsimp only
      refine restIH (modest.modifyBlock nodup fun other isOther same => ?_)
      obtain rfl := Option.some.inj
        (found.symm.trans ((FlowGraph.find?_eq_some_iff nodupState).2 ⟨isOther, same⟩))
      refine ⟨same, ?_, fun tame inBlock instr member => ?_⟩
      · rw [List.length_append, sameLength, ← List.length_append, Block.phis_append_body]
      · rcases List.mem_append.1 member with isPhi | inBody
        · exact tamePhis (fun phi inside => inBlock phi (Block.mem_of_mem_phis inside)) (lasting tame)
            instr isPhi
        · exact inBlock instr (Block.mem_of_mem_body inBody)
    · exact restIH modest

/-- A visit of a block. -/
theorem modest_visitBlock {name : String} {table : ValueTable} {graph state : FlowGraph}
    (lasting : graph.Tame → table.Lasting) (nodup : graph.names.Nodup)
    (modest : graph.Modest state) : graph.Modest (visitBlock name table state).1 ∧
      (graph.Tame → (visitBlock name table state).2.1.Lasting) := by
  unfold visitBlock
  split
  · exact ⟨modest, lasting⟩
  · rename_i block found
    obtain ⟨name_eq, length_eq, tameNumbered⟩ :=
      numberBlock_modest ⟨state.name, name, passName⟩ table block
    have nodupState : state.names.Nodup := by rwa [modest.names_eq]
    obtain ⟨member, isName⟩ := (FlowGraph.find?_eq_some_iff nodupState).1 found
    dsimp only
    generalize numberBlock ⟨state.name, name, passName⟩ table block = numbered at *
    have out : graph.Tame → numbered.2.1.Lasting := fun tame =>
      (tameNumbered (fun _ => (modest.tame tame).of_mem member) (lasting tame)).2
    refine ⟨modest_propagate _ _ out nodup (modest.modifyBlock nodup fun other isOther same => ?_), out⟩
    obtain rfl := Option.some.inj
      (found.symm.trans ((FlowGraph.find?_eq_some_iff nodupState).2 ⟨isOther, same⟩))
    exact ⟨name_eq.trans isName, Nat.le_of_eq length_eq, fun tame inBlock =>
      (tameNumbered inBlock (lasting tame)).1⟩

/-- Global numbering takes no key, adds no instruction and leaves a tame flow graph tame. -/
theorem modest_run {graph after : FlowGraph} {log : Log} (nodup : graph.names.Nodup)
    (ran : run graph = .ok (after, log)) : graph.Modest after := by
  obtain ⟨dominance, _, ran⟩ := Attempt.bind_eq_ok.1 ran
  obtain ⟨rfl, rfl⟩ := Prod.mk.inj (Except.ok.inj ran)
  have walked := walk_visit dominance.tree (startTable graph) graph []
  exact (@Dominance.Tree.walk_cases _ _ visit (fun table => graph.Tame → table.Lasting)
    (fun _ state => graph.Modest state.1) (fun _ => False) dominance.tree (startTable graph)
    (graph, []) 0
    (fun name _ table state _ lasting modest => by
      obtain ⟨next, out⟩ := @modest_visitBlock name _ _ _ lasting nodup modest
      refine ⟨fun table' next' visited => ?_, fun error failed => ?_⟩
      · obtain ⟨rfl, rfl⟩ := Prod.mk.inj (Except.ok.inj visited)
        exact ⟨out, next⟩
      · cases failed)
    (fun tame => ValueTable.Lasting.empty.foldl_define tame.params) (.refl graph)).1 _ walked

end GlobalNumbering

namespace LocalNumbering

/-- Lasting names only: those that have numbers, and the new ones. -/
def State.Lasting (state : State) : Prop :=
  state.table.Lasting ∧ ∀ var name, state.renamed.get? var = some name → Midend.Lasting name

/-- A new name for the variable written is lasting. -/
theorem tame_renameWrite (place : Place) {instr : Instr} (later : List Instr) {state : State}
    (tame : instr.Tame) (lasting : state.Lasting) :
    (renameWrite place instr later state).1.Tame ∧
      (renameWrite place instr later state).2.1.Lasting := by
  rcases renameWrite_cases place instr later state with ⟨_, isInstr, isState⟩ |
    ⟨dest, isDest, _, isInstr, isState⟩ | ⟨dest, _, _, isInstr, isState⟩
  · rw [isInstr, isState]
    exact ⟨tame, lasting⟩
  · have isLasting := (tame.dest dest isDest).fresh state.names
    rw [isInstr, isState]
    refine ⟨tame.mapDest fun _ _ => isLasting, lasting.1, fun var name found => ?_⟩
    rw [SortedMap.get?_insert_eq] at found
    split at found
    · exact Option.some.inj found ▸ isLasting
    · exact lasting.2 var name found
  · rw [isInstr, isState]
    refine ⟨tame, lasting.1, fun var name found => ?_⟩
    rw [SortedMap.get?_erase_eq] at found
    split at found
    · cases found
    · exact lasting.2 var name found

/-- Numbered instructions are as many as before and stay tame. -/
theorem numberInstrs_modest (place : Place) (instrs : List Instr) (state : State) :
    (numberInstrs place instrs state).1.length = instrs.length ∧
      ((∀ instr ∈ instrs, instr.Tame) → state.Lasting →
        ∀ image ∈ (numberInstrs place instrs state).1, image.Tame) := by
  induction instrs generalizing state with
  | nil => exact ⟨rfl, fun _ _ => nofun⟩
  | cons instr rest restIH =>
    have later := fun (tame : ∀ other ∈ instr :: rest, other.Tame) =>
      (List.forall_mem_cons.1 tame).2
    cases isPhi : instr.isPhi with
    | true =>
      rw [numberInstrs, if_pos isPhi]
      obtain ⟨length_eq, tameRest⟩ :=
        restIH { state with table := instr.dest?.toList.foldl .define state.table }
      refine ⟨congrArg Nat.succ length_eq, fun tame lasting => ?_⟩
      have here := tame instr (List.mem_cons_self ..)
      refine List.forall_mem_cons.2 ⟨here, tameRest (later tame) ⟨lasting.1.foldl_define ?_,
        lasting.2⟩⟩
      exact fun var isDest => here.dest var (by simpa using isDest)
    | false =>
      rw [(numberInstrs_cons place isPhi rest state).1]
      obtain ⟨length_eq, tameRest⟩ := restIH (numberOne place instr rest state).2
      refine ⟨congrArg Nat.succ length_eq, fun tame lasting => ?_⟩
      have lastingArg (var : String) (isLasting : Midend.Lasting var) :
          Midend.Lasting (state.renamed.getD var var) := by
        rcases getD_cases state.renamed var with ⟨_, same⟩ | ⟨name, found, same⟩
        · rwa [same]
        · exact same ▸ lasting.2 var name found
      have tameArgs := (tame instr (List.mem_cons_self ..)).mapArgs lastingArg
      obtain ⟨written, lastingWritten⟩ := tame_renameWrite place rest tameArgs lasting
      obtain ⟨image, lastingTable⟩ := Numbering.tame_numberInstr place written lastingWritten.1
      exact List.forall_mem_cons.2 ⟨image, tameRest (later tame) ⟨lastingTable, lastingWritten.2⟩⟩

/-- Numbered blocks have the same names, as many instructions as before, and stay tame. -/
theorem numberBlocks_modest (function : String) (blocks : List Block) (names : NameSupply) :
    (numberBlocks function blocks names).1.map Block.name = blocks.map Block.name ∧
      ((numberBlocks function blocks names).1.flatMap Block.instrs).length =
        (blocks.flatMap Block.instrs).length ∧
      ((∀ instr ∈ blocks.flatMap Block.instrs, instr.Tame) →
        ∀ image ∈ (numberBlocks function blocks names).1.flatMap Block.instrs, image.Tame) := by
  induction blocks generalizing names with
  | nil => exact ⟨rfl, rfl, fun _ => nofun⟩
  | cons block rest restIH =>
    rw [numberBlocks]
    obtain ⟨length_eq, tameBlock⟩ :=
      numberInstrs_modest ⟨function, block.name, passName⟩ block.instrs { names }
    obtain ⟨names_eq, others, tameRest⟩ := restIH
      (numberInstrs ⟨function, block.name, passName⟩ block.instrs { names }).2.1.names
    refine ⟨congrArg (block.name :: ·) names_eq, ?_, fun tame image member => ?_⟩
    · simp only [List.flatMap_cons, List.length_append]
      exact congrArg₂ (· + ·) length_eq others
    · rw [List.flatMap_cons] at tame member
      rcases List.mem_append.1 member with here | later
      · refine tameBlock (fun instr inside => tame instr (List.mem_append_left _ inside))
          ⟨.empty, fun var name found => ?_⟩ image here
        simp at found
      · exact tameRest (fun instr inside => tame instr (List.mem_append_right _ inside)) image later

/-- Local numbering takes no key, adds no instruction and leaves a tame flow graph tame. -/
theorem modest_run (graph : FlowGraph) : graph.Modest (run graph).1 := by
  obtain ⟨names_eq, length_eq, tameAfter⟩ :=
    numberBlocks_modest graph.name graph.blocks (.ofGraph graph)
  exact ⟨names_eq, rfl, rfl, Nat.le_of_eq length_eq, fun tame =>
    tame.of_instrs rfl (tameAfter tame.instrs)⟩

end LocalNumbering

end Midend
