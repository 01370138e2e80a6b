import Midend.Proofs.Names
import Midend.Proofs.Ssa.Establish
import Midend.Proofs.Ssa.Lowering

/-! # Names in single assignment

New names are numbered old ones, so the way into single assignment leaves a tame flow graph tame
(`Ssa.tame_construct`), and no temporary of the way back is one of its variables
(`Ssa.Lowerable.of_tame`). -/

namespace Midend

namespace Ssa

/-! ## The walk -/

/-- Only lasting names are in force. -/
def Scope.Lasting (scope : Scope) : Prop :=
  ∀ var name, scope.get? var = some name → Midend.Lasting name

/-- A merge of lasting variables. -/
structure PendingPhi.Lasting (phi : PendingPhi) : Prop where
  /-- It merges a lasting variable. -/
  var : Midend.Lasting phi.var
  /-- Its result is lasting. -/
  dest : Midend.Lasting phi.dest
  /-- It takes lasting variables. -/
  incoming : ∀ pair ∈ phi.incoming, Midend.Lasting pair.2

/-- A lasting name is put in force. -/
theorem Scope.Lasting.insert {scope : Scope} (lasting : Scope.Lasting scope) {var name : String}
    (isLasting : Midend.Lasting name) : Scope.Lasting (SortedMap.insert scope var name) := by
  intro other found inForce
  rw [SortedMap.get?_insert_eq] at inForce
  split at inForce
  · exact Option.some.inj inForce ▸ isLasting
  · exact lasting other found inForce

/-- Merges get lasting names. -/
theorem lasting_namePhis {phis : List PendingPhi} {scope : Scope} (names : NameSupply)
    (areLasting : ∀ phi ∈ phis, phi.Lasting) (lasting : Scope.Lasting scope) :
    (∀ phi ∈ (namePhis phis scope names).1, phi.Lasting) ∧
      Scope.Lasting (namePhis phis scope names).2.1 := by
  induction phis generalizing scope names with
  | nil => exact ⟨nofun, lasting⟩
  | cons phi rest restIH =>
    obtain ⟨isVar, _, areIncoming⟩ := areLasting phi (List.mem_cons_self ..)
    have isDest := isVar.fresh names
    obtain ⟨others, out⟩ := restIH (names.fresh phi.var).2
      (fun other member => areLasting other (List.mem_cons_of_mem _ member)) (lasting.insert isDest)
    rw [namePhis]
    exact ⟨List.forall_mem_cons.2 ⟨⟨isVar, isDest, areIncoming⟩, others⟩, out⟩

/-- Renamed instructions stay tame. -/
theorem tame_renameInstrs {instrs : List Instr} {scope : Scope} (names : NameSupply)
    (tame : ∀ instr ∈ instrs, instr.Tame) (lasting : Scope.Lasting scope) :
    (∀ instr ∈ (renameInstrs instrs scope names).1, instr.Tame) ∧
      Scope.Lasting (renameInstrs instrs scope names).2.1 := by
  induction instrs generalizing scope names with
  | nil => exact ⟨nofun, lasting⟩
  | cons instr rest restIH =>
    have others := fun (other : Instr) (member : other ∈ rest) =>
      tame other (List.mem_cons_of_mem _ member)
    have read : (instr.mapArgs fun arg => scope.getD arg arg).Tame := by
      refine (tame instr (List.mem_cons_self ..)).mapArgs fun var isLasting => ?_
      rw [SortedMap.getD]
      cases inForce : SortedMap.get? scope var with
      | none => exact isLasting
      | some name => exact lasting var name inForce
    rw [renameInstrs]
    dsimp only
    split
    · rename_i dest isDest
      have isFresh := (read.dest dest isDest).fresh names
      obtain ⟨renamed, out⟩ := restIH (names.fresh dest).2 others (lasting.insert isFresh)
      exact ⟨List.forall_mem_cons.2 ⟨read.mapDest fun _ _ => isFresh, renamed⟩, out⟩
    · obtain ⟨renamed, out⟩ := restIH names others lasting
      exact ⟨List.forall_mem_cons.2 ⟨read, renamed⟩, out⟩

/-- Undefined values with lasting names. -/
def Undefs.Lasting (undefs : Undefs) : Prop :=
  Scope.Lasting undefs.byVar ∧ ∀ instr ∈ undefs.instrs, instr.Tame

/-- At first there are no undefined values. -/
theorem Undefs.Lasting.empty : ({} : Undefs).Lasting :=
  ⟨by simp [Scope.Lasting], nofun⟩

/-- At the end of a block a variable has a lasting name. -/
theorem lasting_valueAtEnd {scope : Scope} (lasting : Scope.Lasting scope) {phi : PendingPhi}
    (isLasting : phi.Lasting) {undefs : Undefs} (areUndefs : undefs.Lasting) (names : NameSupply) :
    Midend.Lasting (valueAtEnd scope phi undefs names).1 ∧
      (valueAtEnd scope phi undefs names).2.1.Lasting := by
  unfold valueAtEnd
  split
  · rename_i inForce
    exact ⟨lasting _ _ inForce, areUndefs⟩
  · rename_i isMade
    exact ⟨areUndefs.1 _ _ isMade, areUndefs⟩
  · have isFresh := (isLasting.var.append (by decide : 'p' ∉ ".undef".toList)).fresh names
    refine ⟨isFresh, areUndefs.1.insert isFresh, fun instr member => ?_⟩
    rcases List.mem_append.1 member with old | isNew
    · exact areUndefs.2 instr old
    · rw [List.mem_singleton.1 isNew]
      exact .compute isFresh (by simp) (by decide) rfl

/-- The merges of one successor take lasting names. -/
theorem lasting_fillPhis (block : String) {scope : Scope} (lasting : Scope.Lasting scope)
    {phis : List PendingPhi} (areLasting : ∀ phi ∈ phis, phi.Lasting) {undefs : Undefs}
    (areUndefs : undefs.Lasting) (names : NameSupply) :
    (∀ phi ∈ (fillPhis block scope phis undefs names).1, phi.Lasting) ∧
      (fillPhis block scope phis undefs names).2.1.Lasting := by
  induction phis generalizing undefs names with
  | nil => exact ⟨nofun, areUndefs⟩
  | cons phi rest restIH =>
    have isLasting := areLasting phi (List.mem_cons_self ..)
    obtain ⟨value, next⟩ := lasting_valueAtEnd lasting isLasting areUndefs names
    obtain ⟨others, last⟩ := restIH
      (fun other member => areLasting other (List.mem_cons_of_mem _ member)) next
      (valueAtEnd scope phi undefs names).2.2
    rw [fillPhis]
    refine ⟨List.forall_mem_cons.2 ⟨⟨isLasting.var, isLasting.dest, fun pair member => ?_⟩, others⟩,
      last⟩
    rcases List.mem_append.1 member with old | isNew
    · exact isLasting.incoming pair old
    · rw [List.mem_singleton.1 isNew]
      exact value

/-- Merges of lasting variables, by block. -/
def PendingPhis.Lasting (phis : PendingPhis) : Prop :=
  ∀ name, ∀ phi ∈ phis.getD name [], phi.Lasting

/-- The merges of a block are put in place. -/
theorem PendingPhis.Lasting.insert {phis : PendingPhis} (lasting : PendingPhis.Lasting phis)
    {name : String} {pending : List PendingPhi} (areLasting : ∀ phi ∈ pending, phi.Lasting) :
    PendingPhis.Lasting (SortedMap.insert phis name pending) := by
  intro other phi member
  rw [SortedMap.getD, SortedMap.get?_insert_eq] at member
  split at member
  · exact areLasting phi member
  · exact lasting other phi member

/-- The merges of the successors take lasting names. -/
theorem lasting_fillSuccessors (block : String) {scope : Scope} (lasting : Scope.Lasting scope)
    (successors : List String) {phis : PendingPhis} (areLasting : PendingPhis.Lasting phis)
    {undefs : Undefs} (areUndefs : undefs.Lasting) (names : NameSupply) :
    PendingPhis.Lasting (fillSuccessors block scope successors phis undefs names).1 ∧
      (fillSuccessors block scope successors phis undefs names).2.1.Lasting := by
  induction successors generalizing phis undefs names with
  | nil => exact ⟨areLasting, areUndefs⟩
  | cons successor rest restIH =>
    rw [fillSuccessors]
    split
    · rename_i pending found
      have isPending : phis.getD successor [] = pending := by rw [SortedMap.getD, found]; rfl
      obtain ⟨filled, next⟩ :=
        lasting_fillPhis block lasting (isPending ▸ areLasting successor) areUndefs names
      exact restIH (areLasting.insert filled) next _
    · exact restIH areLasting areUndefs names

/-- A walk that keeps a flow graph tame. -/
structure Renaming.Tame (state : Renaming) : Prop where
  /-- The code is tame. -/
  graph : state.graph.Tame
  /-- The merges are of lasting variables. -/
  phis : PendingPhis.Lasting state.phis

/-- A visit of a block keeps the flow graph tame. -/
theorem Renaming.Tame.renameBlock {state next : Renaming} (tame : state.Tame) {name : String}
    {scope out : Scope} (lasting : Scope.Lasting scope)
    (renamed : renameBlock name scope state = .ok (out, next)) : Scope.Lasting out ∧ next.Tame := by
  obtain ⟨record, visited, rfl⟩ := visited_of_renameBlock renamed
  obtain ⟨_, pending, mid, block, supply, undefs, isNamed, _, found, isRenamed, isFilled, _,
    rekeyed, _, graph_eq⟩ := visited
  obtain ⟨areNamed, lastingMid⟩ := lasting_namePhis state.names (tame.phis name) lasting
  rw [isNamed] at areNamed lastingMid
  have member := List.mem_of_find?_eq_some found
  obtain ⟨tameBody, lastingOut⟩ :=
    tame_renameInstrs mid (fun _ => tame.graph.of_mem member) lastingMid
  rw [isRenamed] at tameBody lastingOut
  have lastingPhis : PendingPhis.Lasting
      (if pending.isEmpty then state.phis else state.phis.insert name pending) := by
    split
    · exact tame.phis
    · exact tame.phis.insert areNamed
  obtain ⟨filled, tameUndefs⟩ := lasting_fillSuccessors name lastingOut
    ({ block with instrs := record.body } : Block).successors lastingPhis
    (.empty : ({} : Undefs).Lasting) supply
  rw [isFilled] at filled tameUndefs
  refine ⟨lastingOut, tame.graph.of_instrs (by rw [graph_eq]) ?_, filled⟩
  rw [graph_eq]
  refine FlowGraph.forall_instrs_map name record.finish tame.graph.instrs fun _ _ _ instr inside => ?_
  -- The makers of undefined values stand between two parts of the renamed body.
  have inParts : instr ∈ record.body ∨ instr ∈ record.makers := by
    simp only [Renamed.finish, Block.insertAt, List.mem_append] at inside
    rcases inside with (before | isMaker) | after
    · exact .inl (List.mem_of_mem_take before)
    · exact .inr isMaker
    · exact .inl (List.mem_of_mem_drop after)
  rcases inParts with inBody | isMaker
  · exact tameBody instr inBody
  · obtain ⟨original, isOriginal, key, rfl⟩ := FlowGraph.exists_of_rekeyed rekeyed isMaker
    obtain ⟨args, dest, labels⟩ := tameUndefs.2 original isOriginal
    exact ⟨args, dest, labels⟩

/-! ## The conversion -/

/-- A tame flow graph writes lasting variables. -/
theorem lasting_of_writes {graph : FlowGraph} (tame : graph.Tame) {block var : String}
    (isWritten : Writes graph block var) : Lasting var := by
  rcases writes_cases isWritten with ⟨_, isParam⟩ | 
    ⟨writer, member, _, instr, inside, isDest⟩
  · exact tame.params var isParam
  · exact (tame.of_mem member inside).dest var isDest

/-- Merges of lasting variables are inserted. -/
theorem tame_insertPhis {graph after : FlowGraph} {log : Log}
    {list : List (String × List PendingPhi)} (tame : graph.Tame)
    (areLasting : ∀ entry ∈ list, ∀ phi ∈ entry.2, phi.Lasting)
    (inserted : insertPhis graph list = .ok (after, log)) : after.Tame := by
  induction list generalizing graph after log with
  | nil =>
    obtain ⟨rfl, _⟩ := Prod.mk.inj (Except.ok.inj inserted)
    exact tame
  | cons entry rest restIH =>
    obtain ⟨name, phis⟩ := entry
    rw [insertPhis] at inserted
    obtain ⟨⟨keyed, middle⟩, areKeyed, inserted⟩ := Attempt.bind_eq_ok.1 inserted
    obtain ⟨⟨last, more⟩, others, isAfter⟩ := Attempt.bind_eq_ok.1 inserted
    obtain ⟨rfl, _⟩ := Prod.mk.inj (Except.ok.inj isAfter)
    obtain ⟨rekeyed, rfl⟩ := FlowGraph.freshKeys_eq_ok areKeyed
    refine restIH ?_ (fun other member => areLasting other (List.mem_cons_of_mem _ member)) others
    refine tame.of_instrs rfl ?_
    refine FlowGraph.forall_instrs_map name (fun block => block.insertAt 0 keyed) tame.instrs
      fun block member _ instr inside => ?_
    simp only [Block.insertAt, List.take_zero, List.nil_append, List.drop_zero,
      List.mem_append] at inside
    rcases inside with isMerge | old
    · obtain ⟨original, isOriginal, key, rfl⟩ := FlowGraph.exists_of_rekeyed rekeyed isMerge
      obtain ⟨phi, isPhi, rfl⟩ := List.mem_map.1 isOriginal
      obtain ⟨_, isDest, areIncoming⟩ := areLasting _ (List.mem_cons_self ..) phi isPhi
      refine .compute isDest (fun arg isArg => ?_) (by decide) rfl
      obtain ⟨pair, isPair, rfl⟩ := List.mem_map.1 isArg
      exact areIncoming pair isPair
    · exact tame.of_mem member old

/-- The way into single assignment leaves a tame flow graph tame. -/
theorem tame_construct {graph after : FlowGraph} {log : Log} (wellFormed : graph.WellFormed)
    (tame : graph.Tame) (done : construct graph = .ok (after, log)) : after.Tame := by
  obtain ⟨pruned, dominance, state, construction⟩ :=
    exists_construction wellFormed.nodup_names wellFormed.nonempty done
  obtain ⟨params_eq, _, fewer⟩ := construction.kept
  obtain ⟨_, inserted⟩ := construction.inserted
  have walked := construction.walked
  rw [renameTree_eq_walk] at walked
  have tamePruned : pruned.Tame := tame.of_instrs params_eq fun instr member =>
    tame.instrs instr (fewer.subset member)
  obtain ⟨tameState, lastingPhis⟩ := (@Dominance.Tree.walk_cases _ _ renameBlock Scope.Lasting
    (fun _ state => state.Tame) (fun _ => True) dominance.tree (startScope pruned)
    { graph := pruned, phis := placePhis pruned dominance, names := .ofGraph pruned } 0
    (fun name _ scope state _ lasting tame =>
      ⟨fun out next renamed => tame.renameBlock lasting renamed, fun _ _ => trivial⟩)
    (fun var name inForce => by
      obtain ⟨isParam, rfl⟩ := get?_startScope.1 inForce
      exact tamePruned.params name isParam)
    ⟨tamePruned, fun name phi isPlaced => by
      obtain ⟨writer, isWritten⟩ := exists_writes_of_placed isPlaced
      have isLasting := lasting_of_writes tamePruned isWritten
      obtain ⟨var, ty, _, _, _, rfl, _⟩ := mem_placePhis.1 isPlaced
      exact ⟨isLasting, (by decide : Lasting ""), nofun⟩⟩).1 state walked
  refine tame_insertPhis tameState (fun entry member phi isPhi => lastingPhis entry.1 phi ?_) inserted
  rw [SortedMap.getD, SortedMap.get?_eq_some_iff.2 member]
  exact isPhi

/-! ## The way back -/

/-- A tame flow graph in single assignment can leave it. -/
theorem Lowerable.of_tame {graph : FlowGraph} (wellFormed : graph.WellFormed) (inSsa : InSsa graph)
    (tame : graph.Tame) : Lowerable Lasting graph := by
  refine ⟨wellFormed, inSsa.phi_labels, fun block member instr inside isBranch =>
    one_lt_length_successors (wellFormed.blocks block member) inside isBranch
      ((tame.of_mem member inside).labels isBranch), fun block member => ?_,
    fun block member instr inside => ⟨(tame.of_mem member inside).args,
      (tame.of_mem member inside).dest⟩⟩
  have nodup := inSsa.nodup_defs member
  rw [Block.defs, ← block.phis_append_body, List.filterMap_append] at nodup
  exact steadyMerges_of_nodup nodup.of_append_left

end Ssa

end Midend
