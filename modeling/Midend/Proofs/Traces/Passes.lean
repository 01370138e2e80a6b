import Midend.Proofs.FlowGraph.Signature
import Midend.Proofs.Traces.Basic
import Midend.Proofs.Typing.Passes

/-! # Origins and passes

Passes put instructions in the places of others and remove some, but add none. Global numbering and
the removal of dead code keep the variables that are written (`Alters`), and local numbering numbers a
variable only if it is written several times, by a name that is written once
(`LocalNumbering.Revision`). So no variable is numbered twice, and what stems from an instruction does
so after any pass (`Pass.revises_run`, `Schedule.traced_run`). -/

namespace Midend

/-! ## Global numbering -/

namespace Numbering

/-- A numbered instruction stays in place. -/
theorem stays_numberInstr (place : Place) (table : ValueTable) (instr : Instr) :
    instr.Stays (numberInstr place table instr).1 := by
  by_cases skipped : instr.isLabel = true ∨ instr.isPhi = true
  · rw [numberInstr_of_skipped place table skipped]
    exact .refl instr
  · simp only [not_or, Bool.not_eq_true] at skipped
    have read : instr.Stays (canonicalized place table instr) := instr.stays_mapOperands _
    rcases numberInstr_cases place table skipped.1 skipped.2 with
      ⟨dest, ty, _, isDest, isTy, isInstr, _⟩ | ⟨_, isInstr, _⟩
    · rw [isInstr]
      rcases (grows_numberWrite dest ty place (bound_canonicalized place table instr)).action with
        same | ⟨literal, isConst⟩ | ⟨source, _, isCopy⟩
      · rw [same]
        exact read
      · rw [isConst]
        exact read.trans (Instr.stays_const isDest isTy literal)
      · rw [isCopy]
        exact read.trans (Instr.stays_copy isDest isTy source)
    · rw [isInstr]
      exact read

end Numbering

namespace GlobalNumbering

/-- A numbered merge stays in place. -/
theorem stays_numberPhi (place : Place) (table : ValueTable) (instr : Instr) :
    instr.Stays (numberPhi place table instr).1 := by
  unfold numberPhi
  split
  · rename_i op dest ty operands isAction
    have isDest : instr.dest? = some dest := by rw [Instr.dest?, isAction]; rfl
    have isTy : instr.ty? = some ty := by rw [Instr.ty?, isAction]; rfl
    split
    · exact .refl instr
    · dsimp only
      split
      · rename_i simplified becomes
        rcases (simplify?_cases becomes).2 with ⟨literal, _, isConst⟩ | ⟨source, _, isCopy⟩
        · rw [isConst]
          exact Instr.stays_const isDest isTy literal
        · rw [isCopy]
          exact Instr.stays_copy isDest isTy source
      · exact .refl instr
  · exact .refl instr

/-- Instructions stay in place when they are numbered by a step that leaves each one in place. -/
theorem stay_numberAll {step : ValueTable → Instr → Instr × ValueTable × Log}
    (stays : ∀ (table : ValueTable) (instr : Instr), instr.Stays (step table instr).1)
    (instrs : List Instr) (table : ValueTable) :
    List.Forall₂ Instr.Stays instrs (numberAll step instrs table).1 := by
  induction instrs generalizing table with
  | nil => exact .nil
  | cons instr rest restIH => exact .cons (stays table instr) (restIH _)

/-- A block is numbered. -/
theorem alters_numberBlock (place : Place) (table : ValueTable) (block : Block) :
    Alters block.instrs (numberBlock place table block).1.instrs [] := by
  unfold numberBlock
  simp only [List.partition_eq_filter_filter]
  have altered := (Alters.of_forall₂ (stay_numberAll (stays_numberPhi place) block.phis table)).append
    (Alters.of_forall₂ (stay_numberAll (Numbering.stays_numberInstr place) block.body
      (numberAll (numberPhi place) block.phis table).2.1))
  rw [block.phis_append_body] at altered
  -- Merges that became something else move behind those that did not.
  exact altered.perm (.refl _) ((List.filter_append_perm Instr.isPhi _).append_right _)

/-- Merges that receive values stay in place. -/
theorem stay_propagateToPhis (place : Place) (table : ValueTable) (target : String)
    (phis : List Instr) :
    List.Forall₂ Instr.Stays phis (propagateToPhis place table target phis).1 := by
  induction phis with
  | nil => exact .nil
  | cons phi rest restIH => exact .cons (phi.stays_mapOperands _) restIH

/-- A block passes its values on. -/
theorem alters_propagate (place : Place) (table : ValueTable) (targets : List String)
    {graph : FlowGraph} (nodup : graph.names.Nodup) :
    Alters graph.instrs (propagate place table targets graph).1.instrs [] := by
  induction targets generalizing graph with
  | nil => exact .refl _
  | cons target rest restIH =>
    rw [propagate]
    split
    · rename_i block found
      have names_eq := FlowGraph.names_modifyBlock graph (fun other => { other with
        instrs := (propagateToPhis place table target block.phis).1 ++ other.body }) (fun _ => rfl)
        target
      have merges := (Alters.of_forall₂ (stay_propagateToPhis place table target block.phis)).append
        (.refl block.body)
      rw [block.phis_append_body] at merges
      exact (FlowGraph.alters_modifyBlock nodup found merges).trans
        (restIH (by rwa [names_eq]))
    · exact restIH nodup

/-- A block is visited. -/
theorem alters_visitBlock (name : String) (table : ValueTable) {graph : FlowGraph}
    (nodup : graph.names.Nodup) :
    Alters graph.instrs (visitBlock name table graph).1.instrs [] := by
  unfold visitBlock
  split
  · exact .refl _
  · rename_i block found
    have isName := ((FlowGraph.find?_eq_some_iff nodup).1 found).2
    have names_eq : (graph.modifyBlock name fun _ =>
        (numberBlock ⟨graph.name, name, passName⟩ table block).1).names = graph.names :=
      FlowGraph.names_modifyBlock_of fun _ _ => isName
    exact (FlowGraph.alters_modifyBlock nodup found (alters_numberBlock _ table block)).trans
      (alters_propagate _ _ _ (by rwa [names_eq]))

/-- Values are numbered along a tree: the walk keeps the names of blocks, too. -/
theorem alters_run {graph after : FlowGraph} {log : Log} (nodup : graph.names.Nodup)
    (ran : run graph = .ok (after, log)) : Alters graph.instrs after.instrs [] := by
  obtain ⟨dominance, _, ran⟩ := Attempt.bind_eq_ok.1 ran
  obtain ⟨rfl, rfl⟩ := Prod.mk.inj (Except.ok.inj ran)
  have walked := walk_visit dominance.tree (startTable graph) graph []
  exact ((@Dominance.Tree.walk_cases _ _ visit (fun table => graph.Tame → table.Lasting)
    (fun _ state => graph.Modest state.1 ∧ Alters graph.instrs state.1.instrs []) (fun _ => False)
    dominance.tree (startTable graph) (graph, []) 0
    (fun name _ table state _ lasting ⟨modest, alters⟩ => by
      have nodupState : state.1.names.Nodup := by rwa [modest.names_eq]
      obtain ⟨next, out⟩ := @modest_visitBlock name _ _ _ lasting nodup modest
      refine ⟨fun table' next' visited => ?_, fun error failed => ?_⟩
      · obtain ⟨rfl, rfl⟩ := Prod.mk.inj (Except.ok.inj visited)
        exact ⟨out, next, alters.trans (alters_visitBlock name table nodupState)⟩
      · cases failed)
    (fun tame => ValueTable.Lasting.empty.foldl_define tame.params) ⟨.refl graph, .refl _⟩).1 _
      walked).2

end GlobalNumbering

/-! ## Local numbering -/

namespace LocalNumbering

/-- What became of an instruction: it stays in place, or it writes a numbered variable instead of one
of those that are written several times. -/
def Revised (dests stock : List String) (old image : Instr) : Prop :=
  old.Stays image ∨ old.Traces image ∧ ∃ dest number, old.dest? = some dest ∧
    2 ≤ dests.count dest ∧ image.dest? = some (numbered dest "." number) ∧
    numbered dest "." number ∈ stock

/-- What is revised stands where it stood. -/
theorem Revised.traces {dests stock : List String} {old image : Instr}
    (revised : Revised dests stock old image) : old.Traces image :=
  revised.elim Instr.Stays.toTraces And.left

/-- What became of instructions, with the names that were given out on the way. -/
structure Revision (dests : List String) (instrs images : List Instr) (before : NameSupply)
    (stock : List String) (after : NameSupply) : Prop where
  /-- Instructions are revised one by one. -/
  revised : List.Forall₂ (Revised dests stock) instrs images
  /-- The names are new. -/
  supplied : NameSupply.Supplied (fun _ => True) before stock after
  /-- Variables are written no more often than before, and new names once. -/
  count_le : ∀ var, (images.filterMap Instr.dest?).count var ≤
    (instrs.filterMap Instr.dest?).count var + stock.count var

namespace Revision

variable {dests : List String} {instrs images others results : List Instr}
  {before middle after : NameSupply} {stock more : List String}

/-- No instruction is there. -/
theorem nil (dests : List String) (names : NameSupply) : Revision dests [] [] names [] names :=
  ⟨.nil, .nil names, fun _ => Nat.zero_le _⟩

/-- Instructions are revised in two parts. -/
theorem append (first : Revision dests instrs images before stock middle)
    (second : Revision dests others results middle more after) :
    Revision dests (instrs ++ others) (images ++ results) before (stock ++ more) after := by
  refine ⟨List.rel_append (first.revised.imp fun _ _ => Or.imp_right ?_)
    (second.revised.imp fun _ _ => Or.imp_right ?_), first.supplied.append second.supplied,
    fun var => ?_⟩
  · exact fun ⟨traces, dest, number, isDest, twice, isName, given⟩ =>
      ⟨traces, dest, number, isDest, twice, isName, List.mem_append_left _ given⟩
  · exact fun ⟨traces, dest, number, isDest, twice, isName, given⟩ =>
      ⟨traces, dest, number, isDest, twice, isName, List.mem_append_right _ given⟩
  · have left := first.count_le var
    have right := second.count_le var
    simp only [List.filterMap_append, List.count_append]
    omega

/-- An instruction stays in place. -/
theorem stays {old image : Instr} (stays : old.Stays image) (names : NameSupply) :
    Revision dests [old] [image] names [] names := by
  refine ⟨.cons (.inl stays) .nil, .nil names, fun var => ?_⟩
  rw [List.filterMap_cons, List.filterMap_cons, stays.dest?_eq]
  exact Nat.le_add_right _ _

end Revision

/-- One instruction is numbered, of which others that write the same variable may follow. -/
theorem exists_revision_numberOne (place : Place) {dests : List String} (instr : Instr)
    (rest : List Instr) (state : State)
    (within : ((instr :: rest).filterMap Instr.dest?).Sublist dests) :
    ∃ stock, Revision dests [instr] [(numberOne place instr rest state).1] state.names stock
      (numberOne place instr rest state).2.names := by
  have read : instr.Stays (instr.mapArgs fun arg => state.renamed.getD arg arg) :=
    instr.stays_mapOperands _
  have stays := Numbering.stays_numberInstr place
  rw [numberOne]
  dsimp only
  rcases renameWrite_cases place (instr.mapArgs fun arg => state.renamed.getD arg arg) rest state with
    ⟨_, isInstr, isState⟩ | ⟨dest, isDest, again, isInstr, isState⟩ | ⟨_, _, _, isInstr, isState⟩
  · rw [isInstr, isState]
    exact ⟨[], .stays (read.trans (stays _ _)) _⟩
  · rw [isInstr, isState]
    obtain ⟨⟨number, isName⟩, _⟩ := state.names.fresh_spec dest
    have isOld : instr.dest? = some dest := read.dest?_eq.symm.trans isDest
    have renamed := stays state.table ((instr.mapArgs fun arg => state.renamed.getD arg arg).mapDest
      fun _ => (state.names.fresh dest).1)
    have isImage := renamed.dest?_eq
    rw [Instr.dest?_mapDest, isDest, Option.map_some] at isImage
    refine ⟨[(state.names.fresh dest).1], .cons (.inr ⟨?_, dest, number, isOld, ?_, ?_, ?_⟩) .nil,
      .one _ trivial, fun var => ?_⟩
    · exact (read.toTraces.trans (Instr.traces_mapDest _ _)).trans renamed.toTraces
    · -- It is written here and again later.
      have occurs := within.count_le dest
      have later := List.count_pos_iff.2 again
      rw [List.filterMap_cons_some isOld, List.count_cons_self] at occurs
      omega
    · rw [isImage, isName]
    · rw [← isName]
      exact List.mem_singleton_self _
    · rw [List.filterMap_cons_some isImage]
      exact Nat.le_add_left _ _
  · rw [isInstr, isState]
    exact ⟨[], .stays (read.trans (stays _ _)) _⟩

/-- Instructions are numbered in order, some of those that write a variable. -/
theorem exists_revision_numberInstrs (place : Place) {dests : List String} {instrs : List Instr}
    {state : State} (within : (instrs.filterMap Instr.dest?).Sublist dests) :
    ∃ stock, Revision dests instrs (numberInstrs place instrs state).1 state.names stock
      (numberInstrs place instrs state).2.1.names := by
  induction instrs generalizing state with
  | nil => exact ⟨[], .nil dests state.names⟩
  | cons instr rest restIH =>
    have later : (rest.filterMap Instr.dest?).Sublist dests :=
      ((List.sublist_cons_self instr rest).filterMap _).trans within
    cases isPhi : instr.isPhi with
    | true =>
      rw [numberInstrs, if_pos isPhi]
      obtain ⟨stock, others⟩ := @restIH
        { state with table := instr.dest?.toList.foldl .define state.table } later
      exact ⟨stock, (Revision.stays (.refl instr) state.names).append others⟩
    | false =>
      obtain ⟨isOut, isState⟩ := numberInstrs_cons place isPhi rest state
      obtain ⟨stock, first⟩ := exists_revision_numberOne place instr rest state within
      obtain ⟨more, others⟩ := @restIH (numberOne place instr rest state).2 later
      rw [isOut, isState]
      exact ⟨stock ++ more, first.append others⟩

/-- Blocks are numbered one after another. -/
theorem exists_revision_numberBlocks (function : String) {dests : List String} {blocks : List Block}
    {names : NameSupply}
    (within : ((blocks.flatMap Block.instrs).filterMap Instr.dest?).Sublist dests) :
    ∃ stock, Revision dests (blocks.flatMap Block.instrs)
      ((numberBlocks function blocks names).1.flatMap Block.instrs) names stock
      (numberBlocks function blocks names).2.1 := by
  induction blocks generalizing names with
  | nil => exact ⟨[], .nil dests names⟩
  | cons block rest restIH =>
    rw [List.flatMap_cons, List.filterMap_append] at within
    obtain ⟨stock, first⟩ := @exists_revision_numberInstrs ⟨function, block.name, passName⟩ dests
      block.instrs { names } ((List.sublist_append_left ..).trans within)
    obtain ⟨more, others⟩ := @restIH
      (numberInstrs ⟨function, block.name, passName⟩ block.instrs { names }).2.1.names
      ((List.sublist_append_right ..).trans within)
    exact ⟨stock ++ more, first.append others⟩

end LocalNumbering

/-! ## Revised flow graphs -/

namespace FlowGraph

variable {graph middle after : FlowGraph}

/-- No other instruction writes the variable that an instruction writes. -/
def WritesAlone (graph : FlowGraph) (instr : Instr) : Prop :=
  ∀ dest, instr.dest? = some dest → graph.dests.count dest ≤ 1

/-- An instruction that stems from another one, and writes the same variable or one that no other
instruction writes. -/
def Owns (graph : FlowGraph) (origin instr : Instr) : Prop :=
  origin.Stays instr ∨ origin.StemsFrom instr ∧ graph.WritesAlone instr

/-- What an instruction owns stems from it. -/
theorem Owns.stemsFrom {origin instr : Instr} (owns : graph.Owns origin instr) :
    origin.StemsFrom instr := owns.elim Instr.Stays.stemsFrom And.left

/-- What a pass leaves: no key that was not there, and instructions that stem from the same ones as
those in whose places they are. -/
structure Revises (graph after : FlowGraph) : Prop where
  /-- Blocks have the same names. -/
  names_eq : after.names = graph.names
  /-- No key is taken. -/
  nextKey_eq : after.nextKey = graph.nextKey
  /-- No key is there more often than it was. -/
  keys : (after.instrs.map Instr.key).Subperm (graph.instrs.map Instr.key)
  /-- Instructions stem from the same ones. -/
  instrs : ∀ instr ∈ after.instrs, ∃ old ∈ graph.instrs, instr.key = old.key ∧
    ∀ origin, graph.Owns origin old → after.Owns origin instr

namespace Revises

/-- Nothing changes. -/
theorem refl (graph : FlowGraph) : graph.Revises graph :=
  ⟨rfl, rfl, .refl _, fun instr member => ⟨instr, member, rfl, fun _ => id⟩⟩

/-- Instructions are removed or stay in place. -/
theorem of_alters (names_eq : after.names = graph.names) (nextKey_eq : after.nextKey = graph.nextKey)
    (alters : Alters graph.instrs after.instrs []) : graph.Revises after := by
  have keys := subperm_map Prod.fst alters.tags
  rw [List.append_nil, List.map_map, List.map_map] at keys
  refine ⟨names_eq, nextKey_eq, keys, fun instr member => ?_⟩
  obtain ⟨old, inside, stays⟩ := (alters.instrs instr member).resolve_left List.not_mem_nil
  refine ⟨old, inside, stays.key_eq, fun origin owns => owns.imp (·.trans stays) ?_⟩
  rintro ⟨stems, alone⟩
  refine ⟨stems.stays stays, fun dest isDest => ?_⟩
  exact (alters.dests_subperm.count_le dest).trans (alone dest (stays.dest?_eq.symm.trans isDest))

/-- Instructions stay in place or write numbered variables. -/
theorem of_revision (names_eq : after.names = graph.names) (nextKey_eq : after.nextKey = graph.nextKey)
    {stock : List String} {names : NameSupply} (revision : LocalNumbering.Revision graph.dests
      graph.instrs after.instrs (.ofGraph graph) stock names) : graph.Revises after := by
  have keys_eq : after.instrs.map Instr.key = graph.instrs.map Instr.key :=
    map_eq_of_forall₂ revision.revised fun _ _ revised => revised.traces.key_eq
  -- The new names are not among those of the variables that were written.
  have fresh : ∀ dest ∈ graph.dests, stock.count dest = 0 := by
    intro dest written
    obtain ⟨block, member, isDef⟩ := mem_dests.1 written
    obtain ⟨instr, inside, isDest⟩ := List.mem_filterMap.1 isDef
    exact List.count_eq_zero.2 fun given =>
      revision.supplied.notMem dest given (NameSupply.taken_of_dest member inside isDest)
  refine ⟨names_eq, nextKey_eq, List.Perm.subperm (.of_eq keys_eq), fun instr member => ?_⟩
  obtain ⟨old, inside, revised⟩ := exists_of_forall₂_right revision.revised member
  refine ⟨old, inside, revised.traces.key_eq, fun origin owns => ?_⟩
  rcases revised with stays | ⟨traces, dest, number, isDest, twice, isName, given⟩
  · refine owns.imp (·.trans stays) ?_
    rintro ⟨stems, alone⟩
    refine ⟨stems.stays stays, fun dest isDest => ?_⟩
    have isOld : old.dest? = some dest := stays.dest?_eq.symm.trans isDest
    have counts : after.dests.count dest ≤ graph.dests.count dest + stock.count dest :=
      revision.count_le dest
    rw [fresh dest (List.mem_filterMap.2 ⟨old, inside, isOld⟩)] at counts
    exact counts.trans (alone dest isOld)
  · rcases owns with stays | ⟨_, alone⟩
    · refine .inr ⟨⟨stays.toTraces.trans traces,
        .inr ⟨dest, number, stays.dest?_eq.symm.trans isDest, isName⟩⟩, fun other isOther => ?_⟩
      obtain rfl := Option.some.inj (isName.symm.trans isOther)
      have counts : after.dests.count (numbered dest "." number) ≤
        graph.dests.count (numbered dest "." number) + stock.count (numbered dest "." number) :=
          revision.count_le _
      have once := List.nodup_iff_count_le_one.1 revision.supplied.nodup (numbered dest "." number)
      have isNew : graph.dests.count (numbered dest "." number) = 0 :=
        List.count_eq_zero.2 fun written =>
          List.count_eq_zero.1 (fresh _ written) given
      omega
    · -- A numbered variable is written once, so it is not numbered again.
      have once := alone dest isDest
      omega

end Revises

/-- What a flow graph leads to is led to by what a pass leaves. -/
theorem Traced.revises {function : Func} (traced : graph.Traced graph.Owns function)
    (revises : graph.Revises after) : after.Traced after.Owns function :=
  traced.of_keysFrom (by rw [revises.names_eq]; exact traced.nodup_names)
    ⟨Nat.le_of_eq revises.nextKey_eq.symm,
      revises.keys.trans (List.sublist_append_left ..).subperm⟩
    fun instr member => .inr (revises.instrs instr member)

end FlowGraph

/-! ## Passes and schedules -/

/-- A pass revises a flow graph. -/
theorem Pass.revises_run (pass : Pass) {graph : FlowGraph} (nodup : graph.names.Nodup) :
    graph.Revises (pass.run graph).graph := by
  cases pass with
  | localNumbering =>
    have modest := LocalNumbering.modest_run graph
    obtain ⟨_, revision⟩ := @LocalNumbering.exists_revision_numberBlocks graph.name graph.dests
      graph.blocks (.ofGraph graph) (.refl _)
    exact .of_revision modest.names_eq modest.nextKey_eq revision
  | globalNumbering =>
    rw [run]
    split
    · rename_i ran
      have modest := GlobalNumbering.modest_run nodup ran
      exact .of_alters modest.names_eq modest.nextKey_eq (GlobalNumbering.alters_run nodup ran)
    · exact .refl graph
  | deadCode limit =>
    obtain ⟨names_eq, nextKey_eq, fewer⟩ :=
      DeadCode.rounds_drop (DeadCode.roundLimit graph limit) graph
    exact .of_alters names_eq nextKey_eq (.of_subperm fewer.subperm)

/-- What a flow graph leads to is led to by what a schedule leaves. -/
theorem Schedule.traced_run (schedule : Schedule) {function : Func} {graph : FlowGraph}
    (traced : graph.Traced graph.Owns function) :
    (schedule.run graph).graph.Traced (schedule.run graph).graph.Owns function :=
  schedule.kept_run (fun after => after.Traced after.Owns function)
    (fun pass _ traced => traced.revises (pass.revises_run traced.nodup_names)) traced

end Midend
