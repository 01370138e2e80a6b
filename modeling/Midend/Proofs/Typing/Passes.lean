import Midend.Pass
import Midend.Proofs.DeadCode
import Midend.Proofs.FlowGraph.Signature
import Midend.Proofs.Typing.Values
import Midend.Proofs.Values.Local
import Midend.Proofs.Values.Names

/-! # Disciplines and passes

Every pass keeps every discipline (`Pass.tidy_run`), whatever the flow graph looks like. Local
numbering gives new names the kinds of the variables that they stand for; global numbering and the
removal of dead code need no new names. -/

namespace Midend

variable {discipline : Discipline} {kinds : Kinds}

/-! ## Local numbering -/

namespace LocalNumbering

/-- What numbering carries along conforms: the table does, new names have the kinds of the variables
that they stand for, and names with kinds are taken. -/
structure State.Conforms (discipline : Discipline) (kinds : Kinds) (state : State) : Prop where
  /-- The table conforms. -/
  table : state.table.Conforms discipline kinds
  /-- New names have the kinds of their variables. -/
  renamed : kinds.Agrees state.renamed
  /-- Names with kinds are taken. -/
  within : kinds.Within state.names

/-- A write gets a new name of the same kind, or none. -/
theorem conforms_renameWrite (place : Place) {instr : Instr} (rest : List Instr) {state : State}
    (does : instr.Conforms discipline kinds) (conforms : state.Conforms discipline kinds) :
    ∃ later, kinds.Grows later ∧ (renameWrite place instr rest state).1.Conforms discipline later ∧
      (renameWrite place instr rest state).2.1.Conforms discipline later := by
  rcases renameWrite_cases place instr rest state with ⟨_, isInstr, isState⟩ |
    ⟨dest, isDest, _, isInstr, isState⟩ | ⟨dest, _, _, isInstr, isState⟩
  · rw [isInstr, isState]
    exact ⟨kinds, .refl _, does, conforms⟩
  · obtain ⟨kind, isKind⟩ := Option.isSome_iff_exists.1 (does.action.dest isDest)
    obtain ⟨later, grows, within, atName⟩ := Kinds.exists_fresh conforms.within dest kind
    have atDest := grows dest kind isKind
    rw [isInstr, isState]
    refine ⟨later, grows, (does.mono grows).mapDest fun other isOther => ?_,
      conforms.table.mono grows, (conforms.renamed.mono grows).insert atDest atName, within⟩
    obtain rfl := Option.some.inj (isDest.symm.trans isOther)
    rw [atName, atDest]
  · rw [isInstr, isState]
    exact ⟨kinds, .refl _, does, conforms.table, conforms.renamed.erase dest, conforms.within⟩

/-- Instructions that are numbered in order conform, with kinds for the new names. -/
theorem conforms_numberInstrs (place : Place) {instrs : List Instr} {state : State}
    (does : ∀ instr ∈ instrs, instr.Conforms discipline kinds)
    (conforms : state.Conforms discipline kinds) :
    ∃ later, kinds.Grows later ∧ later.Within (numberInstrs place instrs state).2.1.names ∧
      ∀ image ∈ (numberInstrs place instrs state).1, image.Conforms discipline later := by
  induction instrs generalizing state kinds with
  | nil => exact ⟨kinds, .refl _, conforms.within, nofun⟩
  | cons instr rest restIH =>
    rw [List.forall_mem_cons] at does
    cases isPhi : instr.isPhi with
    | true =>
      rw [numberInstrs, if_pos isPhi]
      have defined : (instr.dest?.toList.foldl .define state.table).Conforms discipline kinds :=
        conforms.table.foldl_define fun var isDest => does.1.action.dest (Option.mem_toList.1 isDest)
      have next : State.Conforms discipline kinds
          { state with table := instr.dest?.toList.foldl .define state.table } :=
        ⟨defined, conforms.renamed, conforms.within⟩
      obtain ⟨later, grows, within, images⟩ := restIH does.2 next
      exact ⟨later, grows, within, List.forall_mem_cons.2 ⟨does.1.mono grows, images⟩⟩
    | false =>
      obtain ⟨isOut, isState⟩ := numberInstrs_cons place isPhi rest state
      rw [isOut, isState]
      have read := does.1.mapArgs fun arg _ => conforms.renamed.getD arg
      obtain ⟨middle, first, written, renamed⟩ := conforms_renameWrite place rest read conforms
      obtain ⟨image, table⟩ := Numbering.conforms_numberInstr place renamed.table written
      have next : (numberOne place instr rest state).2.Conforms discipline middle :=
        ⟨table, renamed.renamed, renamed.within⟩
      obtain ⟨later, second, within, images⟩ := restIH
        (fun other member => (does.2 other member).mono first) next
      exact ⟨later, first.trans second, within, List.forall_mem_cons.2 ⟨image.mono second, images⟩⟩

/-- Blocks that are numbered one after another conform, with kinds for the new names. -/
theorem conforms_numberBlocks (function : String) {blocks : List Block} {names : NameSupply}
    (does : ∀ block ∈ blocks, ∀ instr ∈ block.instrs, instr.Conforms discipline kinds)
    (within : kinds.Within names) :
    ∃ later, kinds.Grows later ∧ ∀ image ∈ (numberBlocks function blocks names).1,
      ∀ instr ∈ image.instrs, instr.Conforms discipline later := by
  induction blocks generalizing names kinds with
  | nil => exact ⟨kinds, .refl _, nofun⟩
  | cons block rest restIH =>
    rw [List.forall_mem_cons] at does
    have start : State.Conforms discipline kinds { names } := ⟨.empty, .empty, within⟩
    obtain ⟨middle, first, within, images⟩ :=
      conforms_numberInstrs ⟨function, block.name, passName⟩ does.1 start
    obtain ⟨later, second, others⟩ := restIH
      (fun other member instr inside => (does.2 other member instr inside).mono first) within
    exact ⟨later, first.trans second, List.forall_mem_cons.2
      ⟨fun instr member => (images instr member).mono second, others⟩⟩

/-- Local numbering keeps a discipline. -/
theorem orderly_run {graph : FlowGraph} (orderly : graph.Orderly discipline) :
    (run graph).1.Orderly discipline := by
  obtain ⟨_, conforms⟩ := orderly
  obtain ⟨kinds, conforms, within⟩ := conforms.exists_within
  obtain ⟨later, grows, images⟩ :=
    conforms_numberBlocks graph.name (fun block => conforms.of_mem) within
  refine ⟨later, (conforms.mono grows).of_instrs rfl fun instr member => ?_⟩
  obtain ⟨image, isImage, inside⟩ := List.mem_flatMap.1 member
  exact images image isImage instr inside

end LocalNumbering

/-! ## Global numbering -/

namespace GlobalNumbering

open ValueTable (Explains)

variable {table : ValueTable} {graph : FlowGraph}

/-- Instructions conform when they are numbered in order by a step that keeps the discipline. -/
theorem conforms_numberAll (step : ValueTable → Instr → Instr × ValueTable × Log)
    (instrs : List Instr) (keeps : ∀ instr ∈ instrs, ∀ table : ValueTable,
      table.Conforms discipline kinds →
        (step table instr).1.Conforms discipline kinds ∧
          (step table instr).2.1.Conforms discipline kinds)
    (conforms : table.Conforms discipline kinds) :
    (∀ image ∈ (numberAll step instrs table).1, image.Conforms discipline kinds) ∧
      (numberAll step instrs table).2.1.Conforms discipline kinds := by
  induction instrs generalizing table with
  | nil => exact ⟨nofun, conforms⟩
  | cons instr rest restIH =>
    obtain ⟨here, next⟩ := keeps instr (List.mem_cons_self ..) table conforms
    obtain ⟨later, last⟩ := restIH (fun other member => keeps other (List.mem_cons_of_mem _ member)) next
    exact ⟨List.forall_mem_cons.2 ⟨here, later⟩, last⟩

/-- The values of variables that are found have their kinds. -/
theorem forall₂_numberOf? (conforms : table.Conforms discipline kinds) {args : List String}
    {numbers : List Nat} (found : args.mapM table.numberOf? = some numbers) :
    List.Forall₂ (fun arg number => table.kindOf? kinds number = kinds arg) args numbers := by
  induction args generalizing numbers with
  | nil =>
    obtain rfl := Option.some.inj found
    exact .nil
  | cons arg rest restIH =>
    rw [List.mapM_cons] at found
    obtain ⟨number, isNumber, found⟩ := Option.bind_eq_some_iff.1 found
    obtain ⟨others, areOthers, found⟩ := Option.bind_eq_some_iff.1 found
    obtain rfl := Option.some.inj found
    exact .cons (conforms.var arg number isNumber).2 (restIH areOthers)

/-- What a merge becomes conforms, and its number has a value of the declared type. -/
theorem conforms_simplify? (conforms : table.Conforms discipline kinds) {dest block : String} {ty : Ty}
    {operands : Operands} {numbers : List Nat} (allowed : discipline.types ty)
    (isKind : kinds dest = some (discipline.kind ty))
    (yields : Opcode.phi.Yields discipline kinds ty operands)
    (numbered : List.Forall₂ (fun arg number => table.kindOf? kinds number = kinds arg)
      operands.args numbers) {simplified : Simplified}
    (becomes : simplify? table dest ty numbers (Expr.ofPhi block (operands.labels.zip numbers)) =
      some simplified) :
    simplified.action.Conforms discipline kinds ∧
      table.kindOf? kinds simplified.number = some (discipline.kind ty) := by
  have atNumbers : ∀ number ∈ numbers, table.kindOf? kinds number = some (discipline.kind ty) := by
    intro number member
    obtain ⟨arg, isArg, same⟩ := exists_of_forall₂_right numbered member
    exact same.trans (yields.carried arg isArg)
  obtain ⟨isNumber, becomes⟩ := simplify?_cases becomes
  have atNumber : table.kindOf? kinds simplified.number = some (discipline.kind ty) := by
    rcases isNumber with ⟨nonempty, uniform⟩ | found
    · obtain ⟨first, rest, rfl⟩ := List.exists_cons_of_ne_nil nonempty
      exact uniform first (List.mem_cons_self ..) ▸ atNumbers first (List.mem_cons_self ..)
    · -- An equal merge takes a value of the declared type from somewhere too.
      obtain ⟨kind, atNumber, explains⟩ := conforms.of_lookup? found
      obtain ⟨label, labels, isLabels⟩ := List.exists_cons_of_ne_nil (yields.labels_ne rfl)
      obtain ⟨arg, args, isArgs⟩ := List.exists_cons_of_ne_nil (yields.args_ne rfl)
      rw [isArgs] at numbered
      cases numbered with
      | @cons _ first _ others _ _ =>
        rw [atNumber, Option.some.inj ((explains (label, first) ?_).symm.trans
          (atNumbers first (List.mem_cons_self ..)))]
        rw [isLabels, List.zip_cons_cons, (sortBy_perm _ _).mem_iff]
        exact List.mem_cons_self ..
  refine ⟨?_, atNumber⟩
  rcases becomes with ⟨literal, known, isConst⟩ | ⟨source, isSource, isCopy⟩
  · obtain ⟨isLiteral, atConstant⟩ := conforms.constant _ literal known
    rw [isConst]
    exact .const allowed isKind isLiteral (Option.some.inj (atConstant.symm.trans atNumber))
  · rw [isCopy]
    exact .copy allowed isKind ((ValueTable.kind_of_canonical? isSource).trans atNumber)

/-- A merge that is numbered conforms, and so does the table. -/
theorem conforms_numberPhi (place : Place) {phi : Instr} (isPhi : phi.isPhi = true)
    (conforms : table.Conforms discipline kinds) (does : phi.Conforms discipline kinds) :
    (numberPhi place table phi).1.Conforms discipline kinds ∧
      (numberPhi place table phi).2.1.Conforms discipline kinds := by
  obtain ⟨dest, ty, operands, isAction⟩ := Instr.exists_of_isPhi isPhi
  have acts := does.action
  rw [isAction] at acts
  cases acts with
  | compute notConst allowed isKind conform yields =>
    unfold numberPhi
    rw [isAction]
    dsimp only
    split
    · exact ⟨does, (conforms.define (by rw [isKind]; rfl)).1⟩
    · rename_i numbers found
      have numbered := forall₂_numberOf? conforms found
      split
      · rename_i simplified becomes
        obtain ⟨action, atNumber⟩ := conforms_simplify? conforms allowed isKind yields numbered becomes
        exact ⟨does.withAction action, conforms.bind isKind atNumber⟩
      · obtain ⟨added, atEnd⟩ := conforms.push
          (Expr.ofPhi place.block (operands.labels.zip numbers)) none isKind (fun pair member => by
            rw [(sortBy_perm _ _).mem_iff] at member
            obtain ⟨arg, isArg, same⟩ := exists_of_forall₂_right numbered (List.of_mem_zip member).2
            exact same.trans (yields.carried arg isArg)) nofun
        exact ⟨does, added.bind isKind atEnd⟩

/-- A block that is numbered conforms, and so does the table. -/
theorem conforms_numberBlock (place : Place) {block : Block}
    (conforms : table.Conforms discipline kinds)
    (does : ∀ instr ∈ block.instrs, instr.Conforms discipline kinds) :
    (∀ image ∈ (numberBlock place table block).1.instrs, image.Conforms discipline kinds) ∧
      (numberBlock place table block).2.1.Conforms discipline kinds := by
  obtain ⟨phis, between⟩ := conforms_numberAll (numberPhi place) block.phis
    (fun phi member table conforms => conforms_numberPhi place (Block.isPhi_of_mem_phis member)
      conforms (does phi (Block.mem_of_mem_phis member))) conforms
  obtain ⟨body, last⟩ := conforms_numberAll (Numbering.numberInstr place)
    block.body (fun instr member table conforms =>
      Numbering.conforms_numberInstr place conforms (does instr (Block.mem_of_mem_body member))) between
  refine ⟨fun image member => ?_, last⟩
  simp only [numberBlock, List.partition_eq_filter_filter, List.mem_append, List.mem_filter] at member
  rcases member with (⟨isKept, _⟩ | ⟨isReplaced, _⟩) | inBody
  · exact phis image isKept
  · exact phis image isReplaced
  · exact body image inBody

/-- A canonical variable has the kind of the variable that it stands for. -/
theorem kind_canonical (conforms : table.Conforms discipline kinds) (arg : String) :
    kinds (canonical table arg) = kinds arg := by
  unfold canonical
  cases isCanonical : (table.numberOf? arg).bind table.canonical? with
  | none => rfl
  | some other =>
    obtain ⟨number, isNumber, found⟩ := Option.bind_eq_some_iff.1 isCanonical
    exact (ValueTable.kind_of_canonical? found).trans (conforms.var arg number isNumber).2

/-- Merges conform when they receive canonical variables. -/
theorem conforms_propagateToPhis (place : Place) (conforms : table.Conforms discipline kinds)
    (target : String) {phis : List Instr} (does : ∀ phi ∈ phis, phi.Conforms discipline kinds) :
    ∀ image ∈ (propagateToPhis place table target phis).1, image.Conforms discipline kinds := by
  induction phis with
  | nil => exact nofun
  | cons phi rest restIH =>
    rw [List.forall_mem_cons] at does
    refine List.forall_mem_cons.2 ⟨does.1.withAction (does.1.action.withArgs ?_ fun _ _ => rfl),
      restIH does.2⟩
    -- Labelled arguments are replaced one by one, and the others stay.
    have general : ∀ (labels args : List String), List.Forall₂ (fun old new => kinds new = kinds old)
        args ((((labels.zip args).map fun pair : String × String => (pair.1,
          if pair.1 = place.block then canonical table pair.2 else pair.2)).map Prod.snd) ++
            args.drop (labels.zip args).length) := by
      intro labels
      induction labels with
      | nil => exact fun args => List.forall₂_same.2 fun _ _ => rfl
      | cons label labels labelsIH =>
        intro args
        cases args with
        | nil => exact .nil
        | cons arg args =>
          refine .cons ?_ (labelsIH args)
          show kinds (if label = place.block then canonical table arg else arg) = kinds arg
          split
          · exact kind_canonical conforms arg
          · rfl
    have replaced := general phi.labels phi.args
    rw [propagateInto_eq, List.length_map]
    exact replaced

/-- A flow graph conforms when a block passes its values on. -/
theorem conforms_propagate (place : Place) (conforms : table.Conforms discipline kinds)
    (targets : List String) (does : graph.Conforms discipline kinds) :
    (propagate place table targets graph).1.Conforms discipline kinds := by
  induction targets generalizing graph with
  | nil => exact does
  | cons target rest restIH =>
    rw [propagate]
    split
    · rename_i block found
      have inBlock := does.of_mem (List.mem_of_find?_eq_some found)
      refine restIH (does.modifyBlock fun other member _ instr inside => ?_)
      rcases List.mem_append.1 inside with isPhi | inBody
      · exact conforms_propagateToPhis place conforms target
          (fun phi isPhi => inBlock phi (Block.mem_of_mem_phis isPhi)) instr isPhi
      · exact does.of_mem member instr (Block.mem_of_mem_body inBody)
    · exact restIH does

/-- A flow graph conforms when a block is visited, and so does the table. -/
theorem conforms_visitBlock (name : String) (conforms : table.Conforms discipline kinds)
    (does : graph.Conforms discipline kinds) :
    (visitBlock name table graph).1.Conforms discipline kinds ∧
      (visitBlock name table graph).2.1.Conforms discipline kinds := by
  unfold visitBlock
  split
  · exact ⟨does, conforms⟩
  · rename_i block found
    obtain ⟨images, next⟩ := conforms_numberBlock ⟨graph.name, name, passName⟩ conforms
      (does.of_mem (List.mem_of_find?_eq_some found))
    exact ⟨conforms_propagate _ next _ (does.modifyBlock fun _ _ _ => images), next⟩

mutual

/-- A flow graph conforms when the blocks of a tree are visited. -/
theorem conforms_visitTree (tree : Dominance.Tree) {table : ValueTable} {graph : FlowGraph}
    (conforms : table.Conforms discipline kinds) (does : graph.Conforms discipline kinds) :
    (visitTree tree table graph).1.Conforms discipline kinds := by
  cases tree with
  | node name children =>
    rw [visitTree]
    obtain ⟨here, next⟩ := conforms_visitBlock name conforms does
    exact conforms_visitTrees children next here

/-- A flow graph conforms when the blocks of trees are visited. -/
theorem conforms_visitTrees (trees : List Dominance.Tree) {table : ValueTable} {graph : FlowGraph}
    (conforms : table.Conforms discipline kinds) (does : graph.Conforms discipline kinds) :
    (visitTrees trees table graph).1.Conforms discipline kinds := by
  cases trees with
  | nil =>
    rw [visitTrees]
    exact does
  | cons tree rest =>
    rw [visitTrees]
    exact conforms_visitTrees rest conforms (conforms_visitTree tree conforms does)

end

/-- Global numbering keeps a discipline. -/
theorem orderly_run {after : FlowGraph} {log : Log} (orderly : graph.Orderly discipline)
    (ran : run graph = .ok (after, log)) : after.Orderly discipline := by
  obtain ⟨kinds, conforms⟩ := orderly
  obtain ⟨dominance, _, ran⟩ := Attempt.bind_eq_ok.1 ran
  obtain ⟨rfl, _⟩ := Prod.mk.inj (Except.ok.inj ran)
  refine ⟨kinds, conforms_visitTree dominance.tree (ValueTable.Conforms.empty.foldl_define
    fun var member => ?_) conforms⟩
  obtain ⟨param, isParam, rfl⟩ := List.mem_map.1 member
  rw [(conforms.params param isParam).2]
  rfl

end GlobalNumbering

/-! ## Dead code -/

/-- Blocks of a thinned flow graph keep their names. -/
theorem FlowGraph.Thins.names_eq {out : String → Prop} {change : Block → Block}
    {graph after : FlowGraph} (thins : graph.Thins out change after) : after.names = graph.names := by
  rw [names, names, thins.blocks_eq, List.map_map]
  exact List.map_congr_left fun block _ => thins.block_name block

namespace DeadCode

/-- A round keeps the names of blocks, takes no key and adds no instruction. -/
theorem round_drops (graph : FlowGraph) :
    (round graph).1.names = graph.names ∧ (round graph).1.nextKey = graph.nextKey ∧
      (round graph).1.instrs.Sublist graph.instrs := by
  have first := thins_withoutUnused graph
  have second := thins_withoutOverwritten (withoutUnused graph)
  rw [round_eq]
  exact ⟨second.names_eq.trans first.names_eq, second.nextKey_eq.trans first.nextKey_eq,
    second.sublist_instrs.trans first.sublist_instrs⟩

/-- Rounds keep the names of blocks, take no key and add no instruction. -/
theorem rounds_drop (budget : Nat) (graph : FlowGraph) :
    (rounds budget graph).1.names = graph.names ∧ (rounds budget graph).1.nextKey = graph.nextKey ∧
      (rounds budget graph).1.instrs.Sublist graph.instrs := by
  induction budget generalizing graph with
  | zero => exact ⟨rfl, rfl, .refl _⟩
  | succ budget budgetIH =>
    have first := round_drops graph
    rw [rounds]
    generalize round graph = done at first ⊢
    dsimp only
    split
    · exact ⟨rfl, rfl, .refl _⟩
    · obtain ⟨names_eq, nextKey_eq, fewer⟩ := budgetIH done.1
      exact ⟨names_eq.trans first.1, nextKey_eq.trans first.2.1, fewer.trans first.2.2⟩

end DeadCode

/-! ## Passes -/

/-- A pass keeps a discipline. -/
theorem Pass.tidy_run (pass : Pass) {graph : FlowGraph} (tidy : graph.Tidy discipline) :
    (pass.run graph).graph.Tidy discipline := by
  cases pass with
  | localNumbering =>
    refine ⟨LocalNumbering.orderly_run tidy.orderly, ?_⟩
    show (LocalNumbering.run graph).1.names.Nodup
    rw [(LocalNumbering.modest_run graph).names_eq]
    exact tidy.nodup_names
  | globalNumbering =>
    rw [run]
    split
    · rename_i ran
      refine ⟨GlobalNumbering.orderly_run tidy.orderly ran, ?_⟩
      rw [(GlobalNumbering.modest_run tidy.nodup_names ran).names_eq]
      exact tidy.nodup_names
    · exact tidy
  | deadCode limit =>
    obtain ⟨⟨kinds, conforms⟩, nodup⟩ := tidy
    obtain ⟨names_eq, _, fewer⟩ := DeadCode.rounds_drop (DeadCode.roundLimit graph limit) graph
    have params_eq := congrArg Signature.params (DeadCode.signature_rounds
      (DeadCode.roundLimit graph limit) graph)
    refine ⟨⟨kinds, conforms.of_instrs params_eq fun instr member =>
      conforms.instrs instr (fewer.subset member)⟩, ?_⟩
    show (DeadCode.rounds _ graph).1.names.Nodup
    rw [names_eq]
    exact nodup

end Midend
