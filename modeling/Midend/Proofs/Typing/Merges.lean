import Midend.Proofs.Ssa.Budget
import Midend.Proofs.Ssa.Conversion
import Midend.Proofs.Ssa.Destruct
import Midend.Proofs.Typing.Edits

/-! # Disciplines on the way into single assignment

A new name gets the kind of the variable that it stands for. So the names in force have the kinds of
their variables wherever the walk down the dominator tree is, the merges take and give values of the
types that they were placed with, and the way into single assignment keeps a discipline
(`Ssa.tidy_construct`). That no merge is left without a value takes a look at the frontiers: a
block on one has a reachable predecessor, and the visit of that one fills the merges. -/

namespace Midend

variable {discipline : Discipline} {kinds later : Kinds}

/-! ## Ends of blocks -/

namespace Block

/-- Instructions that end no block may be added where a block ends. -/
theorem successors_insertAt {block : Block} {instrs : List Instr}
    (goOn : ∀ instr ∈ instrs, instr.isTerminator = false) :
    (block.insertAt block.insertionPoint instrs).successors = block.successors := by
  cases isEnd : block.terminator? with
  | some terminator =>
    obtain ⟨isLast, ends⟩ := Option.filter_eq_some_iff.1 isEnd
    obtain ⟨middle, split⟩ := List.getLast?_eq_some_iff.1 isLast
    refine successors_of_getLast? ?_
    rw [Ssa.insertAt_insertionPoint split ends, split, List.getLast?_concat, List.getLast?_concat]
  | none =>
    have atEnd : (block.insertAt block.insertionPoint instrs).instrs = block.instrs ++ instrs := by
      simp [insertAt, insertionPoint, isEnd]
    cases isInstrs : instrs.getLast? with
    | none =>
      obtain rfl := List.getLast?_eq_none_iff.1 isInstrs
      refine successors_of_getLast? ?_
      rw [atEnd, List.append_nil]
    | some last =>
      have isLast : (block.insertAt block.insertionPoint instrs).instrs.getLast? = some last := by
        rw [atEnd, List.getLast?_append, isInstrs, Option.some_or]
      have noEnd : (block.insertAt block.insertionPoint instrs).terminator? = none := by
        rw [terminator?, isLast, Option.filter_some, goOn last (List.mem_of_getLast? isInstrs)]
        rfl
      rw [successors, successors, noEnd, isEnd]

end Block

namespace Ssa

/-! ## Names in force -/

/-- Renamed instructions conform, with kinds for their new names. -/
theorem conforms_renameInstrs {instrs : List Instr} {scope : Scope} {names : NameSupply}
    (within : kinds.Within names) (does : ∀ instr ∈ instrs, instr.Conforms discipline kinds)
    (conforms : kinds.Agrees scope) :
    ∃ later, kinds.Grows later ∧ later.Within (renameInstrs instrs scope names).2.2 ∧
      Kinds.Agrees later (renameInstrs instrs scope names).2.1 ∧
      ∀ instr ∈ (renameInstrs instrs scope names).1, instr.Conforms discipline later := by
  induction instrs generalizing scope names kinds with
  | nil => exact ⟨kinds, .refl _, within, conforms, nofun⟩
  | cons instr rest restIH =>
    rw [List.forall_mem_cons] at does
    have reads : (instr.mapArgs fun arg => scope.getD arg arg).Conforms discipline kinds :=
      does.1.mapArgs fun arg _ => conforms.getD arg
    rw [renameInstrs]
    dsimp only
    split
    · rename_i dest isDest
      obtain ⟨kind, isKind⟩ := Option.isSome_iff_exists.1 (reads.action.dest isDest)
      obtain ⟨middle, grows, withinMiddle, isName⟩ := Kinds.exists_fresh within dest kind
      have atMiddle := grows dest kind isKind
      obtain ⟨later, more, withinLater, out, others⟩ := restIH withinMiddle
        (fun other member => (does.2 other member).mono grows)
        ((conforms.mono grows).insert atMiddle isName)
      refine ⟨later, grows.trans more, withinLater, out, List.forall_mem_cons.2 ⟨?_, others⟩⟩
      refine ((reads.mono grows).mapDest fun other isOther => ?_).mono more
      obtain rfl := Option.some.inj (isDest.symm.trans isOther)
      rw [isName, atMiddle]
    · obtain ⟨later, grows, withinLater, out, others⟩ := restIH within does.2 conforms
      exact ⟨later, grows, withinLater, out,
        List.forall_mem_cons.2 ⟨reads.mono grows, others⟩⟩

/-- Renamed instructions are the same operations with the same labels. -/
theorem shape_renameInstrs (instrs : List Instr) (scope : Scope) (names : NameSupply) :
    (renameInstrs instrs scope names).1.map (fun instr => (instr.op?, instr.labels)) =
      instrs.map fun instr => (instr.op?, instr.labels) := by
  induction instrs generalizing scope names with
  | nil => rfl
  | cons instr rest restIH =>
    rw [renameInstrs]
    dsimp only
    split
    · rw [List.map_cons, List.map_cons, restIH]
      simp
    · rw [List.map_cons, List.map_cons, restIH]
      simp

/-! ## Merges -/

/-- A merge of a variable of the declared type, with a name of its own once it is named and with a
value once it is fed. -/
structure PendingPhi.Conforms (discipline : Discipline) (kinds : Kinds) (named fed : Prop)
    (phi : PendingPhi) : Prop where
  /-- The type is allowed. -/
  allowed : discipline.types phi.ty
  /-- It is that of the variable. -/
  var : kinds phi.var = some (discipline.kind phi.ty)
  /-- It is that of the values. -/
  incoming : ∀ pair ∈ phi.incoming, kinds pair.2 = some (discipline.kind phi.ty)
  /-- It is that of the result. -/
  dest : named → kinds phi.dest = some (discipline.kind phi.ty)
  /-- There is a value. -/
  incoming_ne : fed → phi.incoming ≠ []

/-- Merges that conform, by block. -/
def PendingPhis.Conforms (discipline : Discipline) (kinds : Kinds) (named fed : String → Prop)
    (phis : PendingPhis) : Prop :=
  ∀ name, ∀ phi ∈ phis.getD name [], phi.Conforms discipline kinds (named name) (fed name)

variable { named fed : Prop} {isNamed isFed : String → Prop}

namespace PendingPhi.Conforms

variable {phi : PendingPhi}

/-- Kinds may be added. -/
theorem mono (conforms : phi.Conforms discipline kinds named fed) (grows : kinds.Grows later) :
    phi.Conforms discipline later named fed :=
  ⟨conforms.allowed, grows _ _ conforms.var,
    fun pair member => grows _ _ (conforms.incoming pair member),
    fun holds => grows _ _ (conforms.dest holds), conforms.incoming_ne⟩

end PendingPhi.Conforms

namespace PendingPhis.Conforms

variable {phis : PendingPhis}

/-- Kinds may be added. -/
theorem mono (conforms : PendingPhis.Conforms discipline kinds isNamed isFed phis)
    (grows : kinds.Grows later) : PendingPhis.Conforms discipline later isNamed isFed phis :=
  fun name phi member => (conforms name phi member).mono grows

/-- The merges of a block are put in place. -/
theorem insert (conforms : PendingPhis.Conforms discipline kinds isNamed isFed phis)
    {isNamedNow isFedNow : String → Prop} {name : String} {pending : List PendingPhi}
    (areMerges : ∀ phi ∈ pending, phi.Conforms discipline kinds (isNamedNow name) (isFedNow name))
    (others : ∀ other, other ≠ name → (isNamedNow other → isNamed other) ∧
      (isFedNow other → isFed other)) :
    PendingPhis.Conforms discipline kinds isNamedNow isFedNow
      (SortedMap.insert phis name pending) := by
  intro other phi member
  rw [SortedMap.getD, SortedMap.get?_insert_eq] at member
  split at member
  · rename_i same
    rw [same]
    exact areMerges phi member
  · rename_i apart
    have before := conforms other phi member
    exact ⟨before.allowed, before.var, before.incoming,
      fun holds => before.dest ((others other apart).1 holds),
      fun holds => before.incoming_ne ((others other apart).2 holds)⟩

end PendingPhis.Conforms

/-- Merges get names of their types. -/
theorem conforms_namePhis {phis : List PendingPhi} {scope : Scope} {names : NameSupply}
    (within : kinds.Within names)
    (areMerges : ∀ phi ∈ phis, phi.Conforms discipline kinds named fed)
    (conforms : kinds.Agrees scope) :
    ∃ later, kinds.Grows later ∧ later.Within (namePhis phis scope names).2.2 ∧
      Kinds.Agrees later (namePhis phis scope names).2.1 ∧
      ∀ phi ∈ (namePhis phis scope names).1, phi.Conforms discipline later True fed := by
  induction phis generalizing scope names kinds with
  | nil => exact ⟨kinds, .refl _, within, conforms, nofun⟩
  | cons phi rest restIH =>
    rw [List.forall_mem_cons] at areMerges
    obtain ⟨isMerge, areOthers⟩ := areMerges
    obtain ⟨middle, grows, withinMiddle, isName⟩ :=
      Kinds.exists_fresh within phi.var (discipline.kind phi.ty)
    obtain ⟨later, more, withinLater, out, others⟩ := restIH withinMiddle
      (fun other member => (areOthers other member).mono grows)
      ((conforms.mono grows).insert (grows _ _ isMerge.var) isName)
    have atLater := isMerge.mono (grows.trans more)
    rw [namePhis]
    exact ⟨later, grows.trans more, withinLater, out, List.forall_mem_cons.2
      ⟨⟨atLater.allowed, atLater.var, atLater.incoming, fun _ => more _ _ isName,
        atLater.incoming_ne⟩, others⟩⟩

/-! ## Values at the ends of blocks -/

/-- Undefined values that have the kinds of their variables, and the instructions that make them. -/
structure Undefs.Conforms (discipline : Discipline) (kinds : Kinds) (undefs : Undefs) : Prop where
  /-- They have the kinds of their variables. -/
  byVar : kinds.Agrees undefs.byVar
  /-- The instructions conform. -/
  instrs : ∀ instr ∈ undefs.instrs, instr.Conforms discipline kinds
  /-- None of them ends a block. -/
  goOn : ∀ instr ∈ undefs.instrs, instr.isTerminator = false

/-- Kinds may be added. -/
theorem Undefs.Conforms.mono {undefs : Undefs} (conforms : undefs.Conforms discipline kinds)
    (grows : kinds.Grows later) : undefs.Conforms discipline later :=
  ⟨conforms.byVar.mono grows, fun instr member => (conforms.instrs instr member).mono grows,
    conforms.goOn⟩

/-- At the end of a block a variable has a name of its kind. -/
theorem conforms_valueAtEnd {scope : Scope} {phi : PendingPhi} {undefs : Undefs}
    {names : NameSupply} (within : kinds.Within names) (conforms : kinds.Agrees scope)
    (isMerge : phi.Conforms discipline kinds named fed)
    (areUndefs : undefs.Conforms discipline kinds) :
    ∃ later, kinds.Grows later ∧ later.Within (valueAtEnd scope phi undefs names).2.2 ∧
      later (valueAtEnd scope phi undefs names).1 = some (discipline.kind phi.ty) ∧
      (valueAtEnd scope phi undefs names).2.1.Conforms discipline later := by
  unfold valueAtEnd
  split
  · rename_i inForce
    exact ⟨kinds, .refl _, within, (conforms _ _ inForce).2.trans isMerge.var, areUndefs⟩
  · rename_i isMade
    exact ⟨kinds, .refl _, within, (areUndefs.byVar _ _ isMade).2.trans isMerge.var, areUndefs⟩
  · obtain ⟨later, grows, withinLater, isName⟩ :=
      Kinds.exists_fresh within (phi.var ++ ".undef") (discipline.kind phi.ty)
    have before := areUndefs.mono grows
    have makes : (Instr.undef (names.fresh (phi.var ++ ".undef")).1 phi.ty).Conforms discipline
        later :=
      ⟨.compute nofun isMerge.allowed isName ⟨nofun, nofun⟩ ⟨nofun, nofun, nofun, nofun⟩, nofun,
        (by decide : 0 < keyLimit)⟩
    refine ⟨later, grows, withinLater, isName,
      before.byVar.insert (grows _ _ isMerge.var) isName, fun instr member => ?_,
      fun instr member => ?_⟩
    · rcases List.mem_append.1 member with old | isNew
      · exact before.instrs instr old
      · rw [List.mem_singleton.1 isNew]
        exact makes
    · rcases List.mem_append.1 member with old | isNew
      · exact before.goOn instr old
      · rw [List.mem_singleton.1 isNew]
        rfl

/-- The merges of one successor get values of their types. -/
theorem conforms_fillPhis (block : String) {scope : Scope} {phis : List PendingPhi}
    {undefs : Undefs} {names : NameSupply} (within : kinds.Within names)
    (conforms : kinds.Agrees scope)
    (areMerges : ∀ phi ∈ phis, phi.Conforms discipline kinds named fed)
    (areUndefs : undefs.Conforms discipline kinds) :
    ∃ later, kinds.Grows later ∧ later.Within (fillPhis block scope phis undefs names).2.2 ∧
      (∀ phi ∈ (fillPhis block scope phis undefs names).1,
        phi.Conforms discipline later named True) ∧
      (fillPhis block scope phis undefs names).2.1.Conforms discipline later := by
  induction phis generalizing undefs names kinds with
  | nil => exact ⟨kinds, .refl _, within, nofun, areUndefs⟩
  | cons phi rest restIH =>
    rw [List.forall_mem_cons] at areMerges
    obtain ⟨isMerge, areOthers⟩ := areMerges
    obtain ⟨middle, grows, withinMiddle, isValue, next⟩ :=
      conforms_valueAtEnd within conforms isMerge areUndefs
    obtain ⟨later, more, withinLater, others, last⟩ := restIH withinMiddle (conforms.mono grows)
      (fun other member => (areOthers other member).mono grows) next
    have atLater := isMerge.mono (grows.trans more)
    rw [fillPhis]
    refine ⟨later, grows.trans more, withinLater, List.forall_mem_cons.2 ⟨⟨atLater.allowed,
      atLater.var, fun pair member => ?_, atLater.dest, fun _ => by simp⟩, others⟩, last⟩
    rcases List.mem_append.1 member with old | isNew
    · exact atLater.incoming pair old
    · rw [List.mem_singleton.1 isNew]
      exact more _ _ isValue

/-- The merges of the successors get values of their types. -/
theorem conforms_fillSuccessors (block : String) {scope : Scope} (successors : List String)
    {phis : PendingPhis} {undefs : Undefs} {names : NameSupply} (within : kinds.Within names)
    (conforms : kinds.Agrees scope)
    (areMerges : PendingPhis.Conforms discipline kinds isNamed isFed phis)
    (areUndefs : undefs.Conforms discipline kinds) :
    ∃ later, kinds.Grows later ∧
      later.Within (fillSuccessors block scope successors phis undefs names).2.2 ∧
      PendingPhis.Conforms discipline later isNamed (fun name => isFed name ∨ name ∈ successors)
        (fillSuccessors block scope successors phis undefs names).1 ∧
      (fillSuccessors block scope successors phis undefs names).2.1.Conforms discipline later := by
  induction successors generalizing phis undefs names kinds isFed with
  | nil =>
    simp only [List.not_mem_nil, or_false]
    exact ⟨kinds, .refl _, within, areMerges, areUndefs⟩
  | cons successor rest restIH =>
    rw [fillSuccessors]
    simp only [List.mem_cons, ← or_assoc]
    split
    · rename_i pending found
      have isPending : phis.getD successor [] = pending := by rw [SortedMap.getD, found]; rfl
      obtain ⟨middle, grows, withinMiddle, filled, next⟩ :=
        conforms_fillPhis block within conforms (isPending ▸ areMerges successor) areUndefs
      have fed : PendingPhis.Conforms discipline middle isNamed
          (fun name => isFed name ∨ name = successor)
          (SortedMap.insert phis successor (fillPhis block scope pending undefs names).1) :=
        (areMerges.mono grows).insert
          (fun phi member => ⟨(filled phi member).allowed, (filled phi member).var,
            (filled phi member).incoming, (filled phi member).dest,
            fun _ => (filled phi member).incoming_ne trivial⟩)
          fun other apart => ⟨id, fun holds => holds.resolve_right apart⟩
      obtain ⟨later, more, facts⟩ := restIH withinMiddle (conforms.mono grows) fed next
      exact ⟨later, grows.trans more, facts⟩
    · rename_i found
      -- There is no merge to fill.
      refine restIH within conforms (fun name phi member => ?_) areUndefs
      have before := areMerges name phi member
      refine ⟨before.allowed, before.var, before.incoming, before.dest, ?_⟩
      rintro (holds | rfl)
      · exact before.incoming_ne holds
      · rw [SortedMap.getD, found] at member
        cases member

/-! ## The walk -/

/-- A walk on the way through a flow graph with the given edges and blocks with merges: the code
conforms, and so do the merges, which are named in the blocks that were visited and fed in those that
these lead to. -/
structure Renaming.Conforms (discipline : Discipline) (kinds : Kinds) (merged : String → Prop)
    (targets : String → List String) (visited : List String) (state : Renaming) : Prop where
  /-- The code conforms. -/
  graph : state.graph.Conforms discipline kinds
  /-- Variables with kinds are taken. -/
  within : kinds.Within state.names
  /-- The merges conform. -/
  phis : PendingPhis.Conforms discipline kinds (fun name => merged name → name ∈ visited)
    (fun target => merged target → ∃ source ∈ visited, target ∈ targets source) state.phis
  /-- The edges are the given ones. -/
  successorsOf_eq : ∀ name, state.graph.successorsOf name = targets name
  /-- Blocks have names of their own. -/
  nodup_names : state.graph.names.Nodup

/-- A block that is asked for is found. -/
theorem find?_of_block {graph : FlowGraph} {name : String} {block : Block}
    (found : graph.block name = .ok block) : graph.find? name = some block := by
  unfold FlowGraph.block at found
  split at found
  · rename_i other isOther
    rw [isOther, Except.ok.inj found]
  · cases found

/-- Changing a block keeps its edges if the block leads to the same ones. -/
theorem successorsOf_modifyBlock {graph : FlowGraph} {name : String} (change : Block → Block)
    (sameName : ∀ block, (change block).name = block.name)
    (same : ∀ block, graph.find? name = some block → (change block).successors = block.successors)
    (other : String) :
    (graph.modifyBlock name change).successorsOf other = graph.successorsOf other := by
  rw [FlowGraph.successorsOf, FlowGraph.successorsOf, FlowGraph.find?_modifyBlock _ _ sameName]
  cases found : graph.find? other with
  | none => rfl
  | some block =>
    rw [Option.map_some]
    dsimp only
    split
    · rename_i isName
      have sameOther : block.name = other := by simpa using List.find?_some found
      exact same block (by rw [← isName, sameOther, found])
    · rfl

/-- The merges of a block that is now visited have their names. -/
theorem conforms_named {merged : String → Prop} {visited : List String}
    {phis : PendingPhis}
    (conforms : PendingPhis.Conforms discipline kinds (fun other => merged other → other ∈ visited)
      isFed phis) {name : String} {pending : List PendingPhi}
    (sameVars : pending.map PendingPhi.var = (phis.getD name []).map PendingPhi.var)
    (areNamed : ∀ phi ∈ pending, phi.Conforms discipline kinds True (isFed name)) :
    PendingPhis.Conforms discipline kinds (fun other => merged other → other ∈ name :: visited)
      isFed (if pending.isEmpty then phis else SortedMap.insert phis name pending) := by
  have elsewhere : ∀ other, other ≠ name → (merged other → other ∈ name :: visited) →
      merged other → other ∈ visited := fun other apart isVisited isMerged =>
    (List.mem_cons.1 (isVisited isMerged)).resolve_left apart
  split
  · rename_i isEmpty
    -- There was no merge to name.
    have none : phis.getD name [] = [] := by
      rw [← List.map_eq_nil_iff, ← sameVars, List.isEmpty_iff.1 isEmpty, List.map_nil]
    intro other phi member
    have apart : other ≠ name := by
      rintro rfl
      rw [none] at member
      cases member
    have before := conforms other phi member
    exact ⟨before.allowed, before.var, before.incoming,
      fun isVisited => before.dest (elsewhere other apart isVisited), before.incoming_ne⟩
  · refine conforms.insert (fun phi member => ?_) fun other apart => ⟨elsewhere other apart, id⟩
    have isMerge := areNamed phi member
    exact ⟨isMerge.allowed, isMerge.var, isMerge.incoming, fun _ => isMerge.dest trivial,
      isMerge.incoming_ne⟩

/-- The merges in the blocks that a visited one leads to are fed. -/
theorem conforms_fed {merged : String → Prop} {targets : String → List String}
    {visited : List String} {name : String} {phis : PendingPhis}
    (conforms : PendingPhis.Conforms discipline kinds isNamed
      (fun target => (merged target → ∃ source ∈ visited, target ∈ targets source) ∨
        target ∈ targets name) phis) :
    PendingPhis.Conforms discipline kinds isNamed
      (fun target => merged target → ∃ source ∈ name :: visited, target ∈ targets source)
      phis := by
  intro other phi member
  have isMerge := conforms other phi member
  refine ⟨isMerge.allowed, isMerge.var, isMerge.incoming, isMerge.dest, fun isFed => ?_⟩
  by_cases leads : other ∈ targets name
  · exact isMerge.incoming_ne (.inr leads)
  · refine isMerge.incoming_ne (.inl fun isMerged => ?_)
    obtain ⟨source, isVisited, isTarget⟩ := isFed isMerged
    rcases List.mem_cons.1 isVisited with rfl | earlier
    · exact absurd isTarget leads
    · exact ⟨source, earlier, isTarget⟩

/-- A conforming graph with the given edges and blocks with names of their own. -/
structure Renaming.Keeps (discipline : Discipline) (kinds : Kinds)
    (targets : String → List String) (graph : FlowGraph) : Prop where
  /-- The code conforms. -/
  conforms : graph.Conforms discipline kinds
  /-- The edges are the given ones. -/
  successorsOf_eq : ∀ name, graph.successorsOf name = targets name
  /-- Blocks have names of their own. -/
  nodup_names : graph.names.Nodup

namespace Renaming.Keeps

variable {targets : String → List String} {graph : FlowGraph}

/-- The instructions of a block are replaced by ones of the same shapes. -/
theorem renamed (keeps : Renaming.Keeps discipline kinds targets graph)
    (grows : kinds.Grows later) {name : String} {block : Block}
    (found : graph.find? name = some block) {instrs : List Instr}
    (shape : instrs.map (fun instr => (instr.op?, instr.labels)) =
      block.instrs.map fun instr => (instr.op?, instr.labels))
    (areRenamed : ∀ instr ∈ instrs, instr.Conforms discipline later) :
    Renaming.Keeps discipline later targets
      (graph.modifyBlock name fun block => { block with instrs }) := by
  refine ⟨(keeps.conforms.mono grows).modifyBlock fun _ _ _ => areRenamed, fun other => ?_, ?_⟩
  · refine (successorsOf_modifyBlock (fun block => { block with instrs }) (fun _ => rfl)
      (fun other isOther => ?_) other).trans (keeps.successorsOf_eq other)
    obtain rfl := Option.some.inj (found.symm.trans isOther)
    -- The last operations are the same, with the same labels.
    refine Block.successors_of_getLast? ?_
    rw [← List.getLast?_map, ← List.getLast?_map]
    exact congrArg List.getLast? shape
  · rw [FlowGraph.names_modifyBlock _ (fun block => { block with instrs }) fun _ => rfl]
    exact keeps.nodup_names

/-- Undefined values are made at the end of a block. -/
theorem made (keeps : Renaming.Keeps discipline kinds targets graph) {undefs : Undefs}
    (areUndefs : undefs.Conforms discipline kinds) (name : String) {instrs : List Instr}
    {next : FlowGraph} (areKeyed : graph.freshKeys undefs.instrs = .ok (instrs, next)) :
    Renaming.Keeps discipline kinds targets
      (next.modifyBlock name fun block => block.insertAt block.insertionPoint instrs) := by
  obtain ⟨makers, _⟩ := FlowGraph.conforms_freshKeys areUndefs.instrs areKeyed
  obtain ⟨sameMakers, rfl⟩ := FlowGraph.freshKeys_eq_ok areKeyed
  have goOn : ∀ instr ∈ instrs, instr.isTerminator = false := by
    intro instr member
    obtain ⟨original, isOriginal, key, rfl⟩ := FlowGraph.exists_of_rekeyed sameMakers member
    exact areUndefs.goOn original isOriginal
  have conforms : FlowGraph.Conforms discipline kinds
      { graph with nextKey := graph.nextKey + undefs.instrs.length } :=
    ⟨keeps.conforms.params, keeps.conforms.instrs⟩
  refine ⟨conforms.modifyBlock fun block member _ =>
    Block.forall_insertAt (conforms.of_mem member) makers _, fun other => ?_, ?_⟩
  · exact (successorsOf_modifyBlock (fun block => block.insertAt block.insertionPoint instrs)
      (fun _ => rfl) (fun _ _ => Block.successors_insertAt goOn) other).trans
        (keeps.successorsOf_eq other)
  · rw [FlowGraph.names_modifyBlock _ (fun block => block.insertAt block.insertionPoint instrs)
      fun _ => rfl]
    exact keeps.nodup_names

end Renaming.Keeps

/-- A visit of a block keeps a discipline. -/
theorem Renaming.Conforms.renameBlock {merged : String → Prop} {targets : String → List String}
    {visited : List String} {state next : Renaming}
    (conforms : state.Conforms discipline kinds merged targets visited)
    {name : String} {scope out : Scope} (inForce : kinds.Agrees scope)
    (renamed : Ssa.renameBlock name scope state = .ok (out, next)) :
    ∃ later, kinds.Grows later ∧ later.Agrees out ∧
      next.Conforms discipline later merged targets (name :: visited) := by
  rw [Ssa.renameBlock] at renamed
  -- The merges are named.
  have sameVars := map_var_namePhis (state.phis.getD name []) scope state.names
  obtain ⟨first, growsFirst, withinFirst, midConforms, areNamed⟩ :=
    conforms_namePhis conforms.within (conforms.phis name) inForce
  generalize namePhis (state.phis.getD name []) scope state.names = part at *
  obtain ⟨pending, mid, supply⟩ := part
  dsimp only at renamed sameVars withinFirst midConforms areNamed
  have phisFirst := conforms_named (conforms.phis.mono growsFirst) sameVars areNamed
  -- The instructions are renamed.
  obtain ⟨block, found, renamed⟩ := Attempt.bind_eq_ok.1 renamed
  have isBlock := find?_of_block found
  have shape := shape_renameInstrs block.instrs mid supply
  obtain ⟨second, growsSecond, withinSecond, outConforms, areRenamed⟩ :=
    conforms_renameInstrs withinFirst (fun instr member =>
      ((conforms.graph.of_mem (List.mem_of_find?_eq_some isBlock)) instr member).mono growsFirst)
      midConforms
  generalize renameInstrs block.instrs mid supply = part at *
  obtain ⟨body, last, supply'⟩ := part
  dsimp only at renamed shape withinSecond outConforms areRenamed
  have keeps : Renaming.Keeps discipline kinds targets state.graph :=
    ⟨conforms.graph, conforms.successorsOf_eq, conforms.nodup_names⟩
  have keepsSecond := keeps.renamed (growsFirst.trans growsSecond) isBlock shape areRenamed
  generalize state.graph.modifyBlock name (fun block => { block with instrs := body }) = middle at *
  rw [keepsSecond.successorsOf_eq name] at renamed
  -- The merges of the successors are fed.
  obtain ⟨later, growsLater, withinLater, phisLater, areUndefs⟩ :=
    conforms_fillSuccessors name (targets name) withinSecond outConforms
      (phisFirst.mono growsSecond) (show Undefs.Conforms discipline second {} from
        ⟨.empty, List.forall_mem_nil _, List.forall_mem_nil _⟩)
  generalize fillSuccessors name last (targets name) _ {} supply' = part at *
  obtain ⟨phis, undefs, supply''⟩ := part
  dsimp only at renamed withinLater phisLater areUndefs
  -- The undefined values are made.
  obtain ⟨⟨keyed, rekeyed⟩, areKeyed, renamed⟩ := Attempt.bind_eq_ok.1 renamed
  obtain ⟨rfl, rfl⟩ := Prod.mk.inj (Except.ok.inj renamed)
  have keepsLater : Renaming.Keeps discipline later targets middle :=
    ⟨keepsSecond.conforms.mono growsLater, keepsSecond.successorsOf_eq, keepsSecond.nodup_names⟩
  have keepsLast := keepsLater.made areUndefs name areKeyed
  exact ⟨later, (growsFirst.trans growsSecond).trans growsLater, outConforms.mono growsLater,
    keepsLast.conforms, withinLater, conforms_fed phisLater, keepsLast.successorsOf_eq,
    keepsLast.nodup_names⟩

mutual

/-- A walk down a tree keeps a discipline. -/
theorem Renaming.Conforms.renameTree {merged : String → Prop}
    {targets : String → List String} :
    (tree : Dominance.Tree) → {kinds : Kinds} → {visited : List String} → {state last : Renaming} →
      {scope : Scope} → state.Conforms discipline kinds merged targets visited →
        kinds.Agrees scope → Ssa.renameTree tree scope state = .ok last →
          ∃ later, kinds.Grows later ∧
            last.Conforms discipline later merged targets (tree.preorder.reverse ++ visited)
  | .node name children, kinds, visited, state, last, scope, conforms, inForce, walked => by
    rw [Ssa.renameTree] at walked
    obtain ⟨⟨out, next⟩, here, below⟩ := Attempt.bind_eq_ok.1 walked
    obtain ⟨middle, grows, outInForce, nextConforms⟩ := conforms.renameBlock inForce here
    obtain ⟨later, more, lastConforms⟩ := renameTrees children nextConforms outInForce below
    refine ⟨later, grows.trans more, ?_⟩
    rw [Dominance.Tree.preorder, List.reverse_cons, List.append_assoc]
    exact lastConforms

/-- A walk down several trees keeps a discipline. -/
theorem Renaming.Conforms.renameTrees {merged : String → Prop}
    {targets : String → List String} :
    (trees : List Dominance.Tree) → {kinds : Kinds} → {visited : List String} →
      {state last : Renaming} → {scope : Scope} →
        state.Conforms discipline kinds merged targets visited → kinds.Agrees scope →
          Ssa.renameTrees trees scope state = .ok last →
            ∃ later, kinds.Grows later ∧ last.Conforms discipline later merged targets
              ((Dominance.Tree.preorderAll trees).reverse ++ visited)
  | [], kinds, visited, state, last, scope, conforms, _, walked => by
    obtain rfl := Except.ok.inj walked
    exact ⟨kinds, .refl _, conforms⟩
  | tree :: rest, kinds, visited, state, last, scope, conforms, inForce, walked => by
    rw [Ssa.renameTrees] at walked
    obtain ⟨next, here, onward⟩ := Attempt.bind_eq_ok.1 walked
    obtain ⟨middle, grows, nextConforms⟩ := renameTree tree conforms inForce here
    obtain ⟨later, more, lastConforms⟩ :=
      renameTrees rest nextConforms (inForce.mono grows) onward
    refine ⟨later, grows.trans more, ?_⟩
    rw [Dominance.Tree.preorderAll, List.reverse_append, List.append_assoc]
    exact lastConforms

end

/-! ## The conversion -/

/-- Merges that are named and fed are inserted. -/
theorem conforms_insertPhis {graph after : FlowGraph} {log : Log}
    {list : List (String × List PendingPhi)} (conforms : graph.Conforms discipline kinds)
    (areMerges : ∀ entry ∈ list, ∀ phi ∈ entry.2, phi.Conforms discipline kinds True True)
    (inserted : insertPhis graph list = .ok (after, log)) :
    after.Conforms discipline kinds ∧ after.names = graph.names := by
  induction list generalizing graph after log with
  | nil =>
    obtain ⟨rfl, _⟩ := Prod.mk.inj (Except.ok.inj inserted)
    exact ⟨conforms, rfl⟩
  | cons entry rest restIH =>
    obtain ⟨name, phis⟩ := entry
    rw [List.forall_mem_cons] at areMerges
    rw [insertPhis] at inserted
    obtain ⟨⟨keyed, middle⟩, areKeyed, inserted⟩ := Attempt.bind_eq_ok.1 inserted
    obtain ⟨⟨last, more⟩, others, isAfter⟩ := Attempt.bind_eq_ok.1 inserted
    obtain ⟨rfl, _⟩ := Prod.mk.inj (Except.ok.inj isAfter)
    -- What a pending merge promises is what the discipline asks of the merge that is built from it.
    have built : ∀ instr ∈ phis.map fun phi =>
        Instr.phi phi.dest phi.ty (phi.incoming.map Prod.snd) (phi.incoming.map Prod.fst),
        instr.Conforms discipline kinds := by
      intro instr member
      obtain ⟨phi, isPhi, rfl⟩ := List.mem_map.1 member
      have isMerge := areMerges.1 phi isPhi
      have fed : phi.incoming ≠ [] := isMerge.incoming_ne trivial
      have noResult : ∀ result, Opcode.phi.result? = some result →
          discipline.kind phi.ty = discipline.kind result := by
        intro result isResult
        cases isResult
      refine ⟨.compute (by decide) isMerge.allowed (isMerge.dest trivial)
        ⟨List.forall_mem_nil _, fun arg isArg => ?_⟩ ⟨noResult, fun arg isArg => ?_,
          fun _ empty => fed (List.map_eq_nil_iff.1 empty),
          fun _ empty => fed (List.map_eq_nil_iff.1 empty)⟩, (fun _ isPos => by cases isPos),
        (by decide : 0 < keyLimit)⟩
      · obtain ⟨pair, isPair, rfl⟩ := List.mem_map.1 isArg
        rw [isMerge.incoming pair isPair]
        rfl
      · obtain ⟨pair, isPair, rfl⟩ := List.mem_map.1 isArg
        exact isMerge.incoming pair isPair
    obtain ⟨merges, nextKey, rfl⟩ := FlowGraph.conforms_freshKeys built areKeyed
    have keyedConforms : FlowGraph.Conforms discipline kinds { graph with nextKey } :=
      ⟨conforms.params, conforms.instrs⟩
    obtain ⟨afterConforms, names_eq⟩ := restIH (keyedConforms.modifyBlock fun block member _ =>
      Block.forall_insertAt (keyedConforms.of_mem member) merges 0) areMerges.2 others
    refine ⟨afterConforms, names_eq.trans ?_⟩
    exact FlowGraph.names_modifyBlock _ (fun block => block.insertAt 0 keyed) (fun _ => rfl) name

/-- What is written has the kind of an allowed type. -/
theorem kind_of_write {graph : FlowGraph} (conforms : graph.Conforms discipline kinds)
    {var block : String} {ty : Ty} (isWritten : (var, ty, block) ∈ writes graph) :
    discipline.types ty ∧ kinds var = some (discipline.kind ty) := by
  rcases List.mem_append.1 isWritten with isParam | isResult
  · obtain ⟨param, member, same⟩ := List.mem_map.1 isParam
    obtain ⟨rfl, rest⟩ := Prod.mk.inj same
    obtain ⟨rfl, _⟩ := Prod.mk.inj rest
    exact conforms.params param member
  · obtain ⟨writer, member, isResult⟩ := List.mem_flatMap.1 isResult
    obtain ⟨instr, inside, found⟩ := List.mem_filterMap.1 isResult
    split at found
    · rename_i dest other isDest isTy
      obtain ⟨rfl, rfl, _⟩ : dest = var ∧ other = ty ∧ writer.name = block := by simpa using found
      exact (conforms.of_mem member instr inside).action.written isDest isTy
    · cases found

/-- Removing unreachable blocks adds no name. -/
theorem names_removeUnreachable (graph : FlowGraph) :
    graph.removeUnreachable.2.names.Sublist graph.names := by
  unfold FlowGraph.removeUnreachable
  dsimp only
  split
  · exact .refl _
  · rw [FlowGraph.names, FlowGraph.names, List.map_map]
    refine List.Sublist.map Block.name ?_
    have kept := (List.filter_sublist (p := fun entry : Block × Nat =>
      (graph.digraph.reachable 0).contains entry.2) (l := graph.blocks.zipIdx)).map Prod.fst
    rwa [List.zipIdx_map_fst] at kept

/-- The way into single assignment keeps a discipline. -/
theorem tidy_construct {graph after : FlowGraph} {log : Log} (tidy : graph.Tidy discipline)
    (done : construct graph = .ok (after, log)) : after.Tidy discipline := by
  by_cases empty : graph.blocks = []
  · rw [construct, empty] at done
    obtain ⟨rfl, _⟩ := Prod.mk.inj (Except.ok.inj done)
    exact tidy
  obtain ⟨⟨kinds, conforms⟩, nodup⟩ := tidy
  obtain ⟨pruned, dominance, state, construction⟩ := exists_construction nodup empty done
  obtain ⟨params_eq, _, fewer⟩ := construction.kept
  have conformsPruned : pruned.Conforms discipline kinds :=
    conforms.of_instrs params_eq fun instr member => conforms.instrs instr (fewer.subset member)
  obtain ⟨_, nodupPruned, _, built, walked, _, inserted⟩ := construction
  obtain ⟨fewer, conforms, within⟩ := conformsPruned.exists_within
  have reached : ∀ {name}, name ∈ dominance.tree.preorder ↔
      Reaches (Succeeds pruned.successorMap) pruned.entryName name := built.tree_spec.1 _
  -- Nothing is visited at first.
  have startPhis : PendingPhis.Conforms discipline fewer
      (fun name => (∃ other, name ∈ dominance.frontier other) → name ∈ ([] : List String))
      (fun target => (∃ other, target ∈ dominance.frontier other) →
        ∃ source ∈ ([] : List String), target ∈ pruned.successorsOf source)
      (placePhis pruned dominance) := by
    intro name phi isPlaced
    obtain ⟨noValue, isMerged⟩ := fresh_of_placed built isPlaced
    obtain ⟨var, ty, _, _, isTy, rfl, _⟩ := mem_placePhis.1 isPlaced
    obtain ⟨writer, isWritten⟩ := exists_write_of_type isTy
    obtain ⟨allowed, isKind⟩ := kind_of_write conforms isWritten
    refine ⟨allowed, isKind, List.forall_mem_nil _, fun isVisited => ?_, fun isFed => ?_⟩
    · exact absurd (isVisited isMerged) List.not_mem_nil
    · obtain ⟨source, isVisited, _⟩ := isFed isMerged
      exact absurd isVisited List.not_mem_nil
  have inForce : Kinds.Agrees fewer (startScope pruned) := by
    intro var name inForce
    obtain ⟨isParam, rfl⟩ := get?_startScope.1 inForce
    obtain ⟨param, member, rfl⟩ := List.mem_map.1 isParam
    rw [(conforms.params param member).2]
    exact ⟨rfl, rfl⟩
  obtain ⟨later, grows, stateConforms⟩ := Renaming.Conforms.renameTree dominance.tree
    ⟨conforms, within, startPhis, fun _ => rfl, nodupPruned⟩ inForce walked
  -- Afterwards every block on a frontier is visited, and so is one that leads to it.
  have areMerges : ∀ entry ∈ state.phis.toList, ∀ phi ∈ entry.2,
      phi.Conforms discipline later True True := by
    intro entry member phi isPhi
    have isMerge := stateConforms.phis entry.1 phi (by
      rw [SortedMap.getD, SortedMap.get?_eq_some_iff.2 member]
      exact isPhi)
    refine ⟨isMerge.allowed, isMerge.var, isMerge.incoming, fun _ => isMerge.dest ?_,
      fun _ => isMerge.incoming_ne ?_⟩
    · rintro ⟨other, onFrontier⟩
      rw [List.append_nil, List.mem_reverse, reached]
      exact built.reaches_of_frontier onFrontier
    · rintro ⟨other, onFrontier⟩
      obtain ⟨source, dominates, leads, _⟩ := built.mem_frontier.1 onFrontier
      refine ⟨source, ?_, ?_⟩
      · rw [List.append_nil, List.mem_reverse, reached]
        exact dominates.reaches
      · rwa [FlowGraph.succeeds_successorMap nodupPruned] at leads
  obtain ⟨afterConforms, names_eq⟩ := conforms_insertPhis stateConforms.graph areMerges inserted
  exact ⟨⟨later, afterConforms⟩, names_eq ▸ stateConforms.nodup_names⟩

end Ssa

end Midend
