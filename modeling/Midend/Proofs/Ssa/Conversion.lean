import Midend.Proofs.FlowGraph.Unreachable
import Midend.Proofs.Ssa.Placement
import Midend.Proofs.Ssa.Renaming

/-! # What the conversion makes of a flow graph

The walk down the dominator tree leaves a record of each block: the names in force, the renamed
instructions, and the undefined values made for its successors. `Ssa.Progress` says what holds while
the walk is on, `Ssa.Converted` what the records say about the finished flow graph
(`Ssa.converted_of_construct`). -/

namespace Midend

namespace Ssa

open NameSupply (Supplied)

/-! ## Visits -/

/-- What the visit of a block leaves behind. -/
structure Renamed where
  /-- The names in force above the block. -/
  inherited : Scope := .empty
  /-- The names in force after its merges. -/
  mid : Scope := .empty
  /-- The names in force at its end. -/
  out : Scope := .empty
  /-- The names of its merges. -/
  dests : List String := []
  /-- The renamed instructions. -/
  body : List Instr := []
  /-- The undefined values made at its end, by variable. -/
  undefs : SortedMap String String := .empty
  /-- The instructions that make them. -/
  makers : List Instr := []
  deriving Inhabited

namespace Renamed

/-- The names that were given out for a block. -/
def fresh (record : Renamed) : List String :=
  record.dests ++ record.body.filterMap Instr.dest? ++ record.makers.filterMap Instr.dest?

/-- The name of a variable at the end of a block. -/
def value (record : Renamed) (var : String) : String := valueOf record.out record.undefs var

/-- The renamed block without its merges. -/
def finish (record : Renamed) (block : Block) : Block :=
  let renamed : Block := { block with instrs := record.body }
  renamed.insertAt renamed.insertionPoint record.makers

@[simp] theorem name_finish (record : Renamed) (block : Block) :
    (record.finish block).name = block.name := rfl

/-- A renamed block holds its renamed instructions and those that make undefined values. -/
theorem finish_perm (record : Renamed) (block : Block) :
    (record.finish block).instrs.Perm (record.body ++ record.makers) := by
  rw [finish]
  exact Block.perm_insertAt ..

end Renamed

/-- What a visit does, step by step. -/
structure Visited (name : String) (scope : Scope) (state : Renaming) (record : Renamed)
    (next : Renaming) : Prop where
  /-- The names in force above the block. -/
  inherited_eq : record.inherited = scope
  /-- The merges are named, the instructions renamed, and the merges of the successors filled. -/
  exists_steps : ∃ pending mid block supply undefs,
    namePhis (state.phis.getD name []) scope state.names = (pending, record.mid, mid) ∧
    record.dests = pending.map PendingPhi.dest ∧ state.graph.find? name = some block ∧
    renameInstrs block.instrs record.mid mid = (record.body, record.out, supply) ∧
    fillSuccessors name record.out ({ block with instrs := record.body } : Block).successors
      (if pending.isEmpty then state.phis else state.phis.insert name pending) {} supply =
        (next.phis, undefs, next.names) ∧
    record.undefs = undefs.byVar ∧
    List.Forall₂ FlowGraph.Rekeyed undefs.instrs record.makers ∧
    record.makers.map Instr.key = List.range' state.graph.nextKey undefs.instrs.length ∧
    next.graph = { state.graph with
      nextKey := state.graph.nextKey + undefs.instrs.length
      blocks := state.graph.blocks.map fun block =>
        if block.name = name then record.finish block else block }

/-- A visit leaves a record. -/
theorem visited_of_renameBlock {name : String} {scope out : Scope} {state next : Renaming}
    (renamed : renameBlock name scope state = .ok (out, next)) :
    ∃ record, Visited name scope state record next ∧ record.out = out := by
  rw [renameBlock] at renamed
  -- The stages of the visit are named one after another; the record is put together from their
  -- results.
  generalize named : namePhis (state.phis.getD name []) scope state.names = first at renamed
  obtain ⟨pending, mid, supply⟩ := first
  dsimp only at renamed
  obtain ⟨block, found, renamed⟩ := Attempt.bind_eq_ok.1 renamed
  have isBlock : state.graph.find? name = some block := by
    unfold FlowGraph.block at found
    split at found
    · rename_i other isOther
      rw [isOther, Except.ok.inj found]
    · cases found
  have sameName : block.name = name := by simpa using List.find?_some isBlock
  generalize isBody : renameInstrs block.instrs mid supply = second at renamed
  obtain ⟨body, last, supply'⟩ := second
  dsimp only at renamed
  have successors_eq : (state.graph.modifyBlock name fun block =>
      { block with instrs := body }).successorsOf name =
        ({ block with instrs := body } : Block).successors := by
    rw [FlowGraph.successorsOf, FlowGraph.find?_modifyBlock _
      (fun block => { block with instrs := body }) (fun _ => rfl), isBlock, Option.map_some,
      if_pos sameName]
  rw [successors_eq] at renamed
  generalize isFilled : fillSuccessors name last ({ block with instrs := body } : Block).successors
    (if pending.isEmpty = true then state.phis else state.phis.insert name pending) {} supply' =
      third at renamed
  obtain ⟨phis, undefs, supply''⟩ := third
  obtain ⟨⟨makers, keyed⟩, areKeyed, renamed⟩ := Attempt.bind_eq_ok.1 renamed
  obtain ⟨rfl, rfl⟩ := Prod.mk.inj (Except.ok.inj renamed)
  have keys := FlowGraph.map_key_of_freshKeys areKeyed
  obtain ⟨rekeyed, rfl⟩ := FlowGraph.freshKeys_eq_ok areKeyed
  -- Writing the body and giving out keys are one change of the block.
  refine ⟨⟨scope, mid, last, pending.map PendingPhi.dest, body, undefs.byVar, makers⟩,
    ⟨rfl, pending, supply, block, supply', undefs, named, rfl, isBlock, isBody, isFilled,
      rfl, rekeyed, keys, ?_⟩, rfl⟩
  simp only [FlowGraph.modifyBlock, List.map_map]
  congr 1
  refine List.map_congr_left fun block _ => ?_
  simp only [Function.comp_apply]
  by_cases same : block.name = name
  · subst same
    simp only [if_true]
    rfl
  · simp only [same, if_false]

mutual

/-- The conversion walks down the tree. -/
theorem renameTree_eq_walk : (tree : Dominance.Tree) → (scope : Scope) → (state : Renaming) →
    renameTree tree scope state = tree.walk renameBlock scope state
  | .node name children, scope, state => by
    rw [renameTree, Dominance.Tree.walk]
    congr 1
    funext step
    exact renameTrees_eq_walkAll children _ _

/-- The conversion walks down several trees. -/
theorem renameTrees_eq_walkAll : (trees : List Dominance.Tree) → (scope : Scope) →
    (state : Renaming) →
      renameTrees trees scope state = Dominance.Tree.walkAll renameBlock trees scope state
  | [], scope, state => rfl
  | tree :: rest, scope, state => by
    rw [renameTrees, Dominance.Tree.walkAll, renameTree_eq_walk tree]
    congr 1
    funext next
    exact renameTrees_eq_walkAll rest _ _

end

/-! ## Invariant of the walk -/

/-- The stems of new names: variables that are written, and undefined values of them. -/
def IsStem (graph : FlowGraph) (stem : String) : Prop :=
  ∃ block var, Writes graph block var ∧ (stem = var ∨ stem = var ++ ".undef")

/-- Renamed instructions are the same operations with the same labels. -/
theorem Renames.map_op?_labels {instrs renamed : List Instr} {scope out : Scope}
    (renames : Renames instrs scope renamed out) :
    renamed.map (fun instr => (instr.op?, instr.labels)) =
      instrs.map fun instr => (instr.op?, instr.labels) := by
  induction renames with
  | nil => rfl
  | plain _ _ restIH | write _ _ _ restIH => simp [restIH]

/-- Renamed instructions lead where the original ones did. -/
theorem successors_of_renames {block : Block} {scope out : Scope} {renamed : List Instr}
    (renames : Renames block.instrs scope renamed out) :
    ({ block with instrs := renamed } : Block).successors = block.successors := by
  refine Block.successors_of_getLast? ?_
  rw [← List.getLast?_map, ← List.getLast?_map]
  exact congrArg List.getLast? renames.map_op?_labels

/-- What is in force after the merges of a block. -/
structure Opened (graph : FlowGraph) (dominance : Dominance) (name : String) (record : Renamed) :
    Prop where
  /-- Its merges are. -/
  mid_of_mem : ∀ phi ∈ (placePhis graph dominance).getD name [],
    record.mid.get? phi.var = some (record.mid.getD phi.var "")
  /-- Their names are listed in order. -/
  dests_eq : record.dests = ((placePhis graph dominance).getD name []).map fun phi =>
    record.mid.getD phi.var ""
  /-- Variables that the block does not merge keep their names. -/
  mid_of_not_placed : ∀ var, ¬ Placed graph dominance name var →
    record.mid.get? var = record.inherited.get? var

/-- What is in force after the merges is one of them or comes from above. -/
theorem Opened.mid_cases {graph : FlowGraph} {dominance : Dominance} {name : String}
    {record : Renamed} (opened : Opened graph dominance name record) {var other : String}
    (inForce : record.mid.get? var = some other) :
    other ∈ record.dests ∨ record.inherited.get? var = some other := by
  by_cases isPlaced : Placed graph dominance name var
  · obtain ⟨phi, inside, rfl⟩ := isPlaced
    obtain rfl := Option.some.inj (inForce.symm.trans (opened.mid_of_mem phi inside))
    exact .inl (opened.dests_eq ▸ List.mem_map_of_mem inside)
  · exact .inr (opened.mid_of_not_placed var isPlaced ▸ inForce)

/-- What the record of a visited block says about it. -/
structure Settled (graph : FlowGraph) (dominance : Dominance) (name : String) (record : Renamed) :
    Prop where
  /-- Its instructions are renamed. -/
  exists_renames : ∃ block, graph.find? name = some block ∧
    Renames block.instrs record.mid record.body record.out
  /-- Its merges have names, which are in force after them. -/
  mid_of_mem : ∀ phi ∈ (placePhis graph dominance).getD name [], ∃ dest ∈ record.dests,
    record.mid.get? phi.var = some dest
  /-- The names of its merges are listed in order. -/
  dests_eq : record.dests = ((placePhis graph dominance).getD name []).map fun phi =>
    record.mid.getD phi.var ""
  /-- Variables that it does not merge keep their names. -/
  mid_of_not_placed : ∀ var, ¬ Placed graph dominance name var →
    record.mid.get? var = record.inherited.get? var
  /-- Names in force above it were not given out for it. -/
  inherited_notMem : ∀ var other, record.inherited.get? var = some other → other ∉ record.fresh
  /-- Instructions at its end make undefined values. -/
  isUndef : ∀ instr ∈ record.makers, ∃ dest ty key, instr = (Instr.undef dest ty).withKey key
  /-- These are the undefined values of variables. -/
  made : ∀ var other, record.undefs.get? var = some other →
    other ∈ record.makers.filterMap Instr.dest?
  /-- Variables that a successor merges have a name at its end. -/
  valued : ∀ target ∈ graph.successorsOf name, ∀ phi ∈ (placePhis graph dominance).getD target [],
    record.out.get? phi.var = none → ∃ other, record.undefs.get? phi.var = some other

namespace Settled

variable {graph : FlowGraph} {dominance : Dominance} {name : String} {record : Renamed}

/-- The merges of a settled block are in force after them. -/
theorem opened (settled : Settled graph dominance name record) :
    Opened graph dominance name record := by
  refine ⟨fun phi isPlaced => ?_, settled.dests_eq, settled.mid_of_not_placed⟩
  obtain ⟨dest, _, atVar⟩ := settled.mid_of_mem phi isPlaced
  rw [SortedMap.getD, atVar, Option.getD_some]

/-- What is in force at the end is a merge, a result or comes from above. -/
theorem out_cases (settled : Settled graph dominance name record) {var other : String}
    (inForce : record.out.get? var = some other) :
    other ∈ record.dests ∨ other ∈ record.body.filterMap Instr.dest? ∨
      record.inherited.get? var = some other := by
  obtain ⟨block, _, renames⟩ := settled.exists_renames
  rcases renames.out_cases inForce with early | isResult
  · rcases settled.opened.mid_cases early with isDest | above
    · exact .inl isDest
    · exact .inr (.inr above)
  · exact .inr (.inl isResult)

/-- What is in force at the end is none of the undefined values made there. -/
theorem notMem_makers (settled : Settled graph dominance name record) (nodup : record.fresh.Nodup)
    {var other : String} (inForce : record.out.get? var = some other) :
    other ∉ record.makers.filterMap Instr.dest? := by
  intro isMade
  have apart := (List.nodup_append.1 nodup).2.2
  rcases settled.out_cases inForce with isDest | isResult | above
  · exact apart other (List.mem_append_left _ isDest) other isMade rfl
  · exact apart other (List.mem_append_right _ isResult) other isMade rfl
  · exact settled.inherited_notMem var other above (List.mem_append_right _ isMade)

end Settled

/-- What holds while the walk is on, with the blocks visited so far. -/
structure Progress (graph : FlowGraph) (dominance : Dominance) (records : String → Renamed)
    (done : List String) (state : Renaming) : Prop where
  /-- The function keeps its name. -/
  name_eq : state.graph.name = graph.name
  /-- The parameters stay. -/
  params_eq : state.graph.params = graph.params
  /-- Visited blocks are renamed, the others are as they were. -/
  blocks_eq : state.graph.blocks = graph.blocks.map fun block =>
    if block.name ∈ done then (records block.name).finish block else block
  /-- Merges have names in visited blocks, and values from visited blocks. -/
  phis_eq : ∀ name, state.phis.getD name [] = ((placePhis graph dominance).getD name []).map
    fun phi =>
      { phi with
        dest := if name ∈ done then (records name).mid.getD phi.var "" else phi.dest
        incoming := (done.filter fun source => name ∈ graph.successorsOf source).map fun source =>
          (source, (records source).value phi.var) }
  /-- Names were given out. -/
  supplied : Supplied (IsStem graph) (.ofGraph graph)
    (done.flatMap fun name => (records name).fresh) state.names
  /-- Names in force are taken. -/
  out_taken : ∀ name ∈ done, ∀ var other, (records name).out.get? var = some other →
    other ∈ state.names.taken
  /-- Visited blocks are settled. -/
  settled : ∀ name ∈ done, Settled graph dominance name (records name)

/-- At the start no block is visited. -/
theorem Progress.start {graph : FlowGraph} {dominance : Dominance}
    {successors : SortedMap String (List String)} {entry : String}
    (built : dominance.Built successors entry) (records : String → Renamed) :
    Progress graph dominance records []
      { graph, phis := placePhis graph dominance, names := .ofGraph graph } := by
  refine ⟨rfl, rfl, by simp, fun name => ?_, .nil _, by simp, by simp⟩
  refine (List.map_id _).symm.trans (List.map_congr_left fun phi member => ?_)
  obtain ⟨noValues, _⟩ := fresh_of_placed built member
  obtain ⟨var, ty, dest, incoming⟩ := phi
  obtain rfl : incoming = [] := noValues
  simp

/-! ### A visit of one more block

A visit names the merges of its block (`Progress.opens`), renames the instructions, and gives the
successors their values; `Progress.advances` puts together what it leaves (`Advanced`), from which
the invariant follows. -/

/-- What a visit of a block that was not visited before leaves. -/
structure Advanced (graph : FlowGraph) (dominance : Dominance) (name : String) (state : Renaming)
    (record : Renamed) (next : Renaming) : Prop where
  /-- The block is settled. -/
  settled : Settled graph dominance name record
  /-- Names were given out for it. -/
  supplied : Supplied (IsStem graph) state.names record.fresh next.names
  /-- Its merges have names, and those of its successors its values. -/
  phis_eq : ∀ target, next.phis.getD target [] = (state.phis.getD target []).map fun phi =>
    { phi with
      dest := if target = name then record.mid.getD phi.var "" else phi.dest
      incoming := phi.incoming ++
        if target ∈ graph.successorsOf name then [(name, record.value phi.var)] else [] }

/-- The pending merges of all blocks once those of one block have names. -/
theorem getD_named {phis : PendingPhis} {pending : List PendingPhi} {name : String} {mid : Scope}
    (isPending : pending =
      (phis.getD name []).map fun phi => { phi with dest := mid.getD phi.var "" })
    (target : String) :
    (if pending.isEmpty = true then phis else phis.insert name pending).getD target [] =
      (phis.getD target []).map fun phi =>
        { phi with dest := if target = name then mid.getD phi.var "" else phi.dest } := by
  by_cases same : target = name
  · subst same
    simp only [if_true, ← isPending]
    split
    · rename_i empty
      rw [List.isEmpty_iff.1 empty] at isPending ⊢
      exact List.map_eq_nil_iff.1 isPending.symm
    · rw [SortedMap.getD, SortedMap.get?_insert_eq, if_pos rfl, Option.getD_some]
  · simp only [same, if_false]
    rw [List.map_id']
    split
    · rfl
    · rw [SortedMap.getD, SortedMap.get?_insert_eq, if_neg same, SortedMap.getD]

namespace Progress

variable {graph : FlowGraph} {dominance : Dominance} {records : String → Renamed}
  {done : List String} {state next : Renaming} {name : String} {scope : Scope} {record : Renamed}

/-- A block that was not visited is as it was. -/
theorem find?_eq (progress : Progress graph dominance records done state) (isNew : name ∉ done)
    {block : Block} (found : state.graph.find? name = some block) :
    graph.find? name = some block := by
  rw [FlowGraph.find?_map graph _ (fun block => by split <;> rfl) progress.blocks_eq] at found
  obtain ⟨original, isOriginal, same⟩ := Option.map_eq_some_iff.1 found
  have isName : original.name = name := by simpa using List.find?_some isOriginal
  rw [isOriginal, ← same, if_neg (by rwa [isName])]

/-- The pending merges of a block are of the variables that it has to merge. -/
theorem map_var_phis (progress : Progress graph dominance records done state) (target : String) :
    (state.phis.getD target []).map PendingPhi.var =
      ((placePhis graph dominance).getD target []).map PendingPhi.var := by
  rw [progress.phis_eq, List.map_map]
  rfl

/-- Pending merges are of variables that some block writes. -/
theorem exists_writes (progress : Progress graph dominance records done state) {target : String}
    {phi : PendingPhi} (inside : phi ∈ state.phis.getD target []) :
    ∃ block, Writes graph block phi.var := by
  rw [progress.phis_eq] at inside
  obtain ⟨original, isPlaced, rfl⟩ := List.mem_map.1 inside
  obtain ⟨block, isWritten⟩ := exists_writes_of_placed isPlaced
  exact ⟨block, isWritten⟩

/-- The merges of a block get fresh names, which are in force after them. -/
theorem opens (progress : Progress graph dominance records done state)
    {pending : List PendingPhi} {supply : NameSupply}
    (isNamed : namePhis (state.phis.getD name []) record.inherited state.names =
      (pending, record.mid, supply))
    (areDests : record.dests = pending.map PendingPhi.dest) :
    pending = (state.phis.getD name []).map (fun phi =>
        { phi with dest := record.mid.getD phi.var "" }) ∧
      Opened graph dominance name record ∧
      Supplied (IsStem graph) state.names record.dests supply := by
  have vars_eq := progress.map_var_phis name
  obtain ⟨isPending, supplied, inForce, kept⟩ := namePhis_spec (IsStem graph)
    (fun phi inside => (progress.exists_writes inside).imp fun _ isWritten =>
      ⟨phi.var, isWritten, .inl rfl⟩)
    (vars_eq ▸ nodup_placed_vars graph dominance name) isNamed
  refine ⟨isPending, ⟨fun phi isPlaced => ?_, ?_, fun var notPlaced => ?_⟩, areDests ▸ supplied⟩
  · have isVar := List.mem_map_of_mem (f := PendingPhi.var) isPlaced
    rw [← vars_eq] at isVar
    obtain ⟨original, inside, same⟩ := List.mem_map.1 isVar
    have held := inForce { original with dest := record.mid.getD original.var "" }
      (by rw [isPending]; exact List.mem_map_of_mem inside)
    rwa [same] at held
  · calc record.dests
        = ((state.phis.getD name []).map PendingPhi.var).map fun var => record.mid.getD var "" := by
          rw [areDests, isPending, List.map_map, List.map_map]
          rfl
      _ = _ := by
          rw [vars_eq, List.map_map]
          rfl
  · refine kept var fun isVar => notPlaced ?_
    rw [vars_eq] at isVar
    obtain ⟨phi, inside, same⟩ := List.mem_map.1 isVar
    exact ⟨phi, inside, same⟩

/-- What a visit of one more block leaves. -/
theorem advances (nodup : graph.names.Nodup)
    (progress : Progress graph dominance records done state) (isNew : name ∉ done)
    (inForce : ∀ var other, scope.get? var = some other → other ∈ state.names.taken)
    (visited : Visited name scope state record next) :
    Advanced graph dominance name state record next := by
  obtain ⟨rfl, pending, mid, block, supply, undefs, isNamed, areDests, found, isRenamed,
    isFilled, areUndefs, rekeyed, _, _⟩ := visited
  have isBlock := progress.find?_eq isNew found
  obtain ⟨member, isName⟩ := (FlowGraph.find?_eq_some_iff nodup).1 isBlock
  obtain ⟨isPending, opened, suppliedPhis⟩ := progress.opens isNamed areDests
  -- What is in force behind the merges is taken: by a merge, or from above.
  obtain ⟨renames, suppliedBody⟩ := renameInstrs_spec (IsStem graph)
    (fun instr inside dest isDest => ⟨_, dest, writes_of_mem member inside isDest, .inl rfl⟩)
    (fun var other held => by
      rcases opened.mid_cases held with isDest | above
      · exact (suppliedPhis.mem_iff other).2 (.inr isDest)
      · exact suppliedPhis.mono (inForce var other above)) isRenamed
  have successors_eq : graph.successorsOf name = block.successors := by
    rw [FlowGraph.successorsOf, isBlock]
  rw [successors_of_renames renames] at isFilled
  -- Undefined values are named after variables that are merged, so after variables that are
  -- written.
  obtain ⟨⟨more, grown⟩, filledSpec⟩ := fillSuccessors_spec (IsStem graph)
    (fun target phi inside => by
      rw [getD_named isPending] at inside
      obtain ⟨original, isOriginal, rfl⟩ := List.mem_map.1 inside
      exact (progress.exists_writes isOriginal).imp fun _ isWritten =>
        ⟨original.var, isWritten, .inr rfl⟩)
    block.nodup_successors isFilled
  obtain ⟨nextPhis, valued⟩ := filledSpec record.undefs (areUndefs ▸ fun _ _ => id)
  rw [← successors_eq] at nextPhis valued
  have moreIs : undefs.instrs = more := grown.instrs_eq
  have makerDests := FlowGraph.filterMap_dest?_of_rekeyed rekeyed
  have suppliedUndefs := grown.supplied
  rw [← moreIs, ← makerDests] at suppliedUndefs
  have supplied : Supplied (IsStem graph) state.names record.fresh next.names :=
    (suppliedPhis.append suppliedBody).append suppliedUndefs
  refine ⟨⟨⟨block, isBlock, renames⟩, fun phi isPlaced => ?_, opened.dests_eq,
    opened.mid_of_not_placed, fun var taken held => ?_, fun instr isMaker => ?_,
    fun var made held => ?_, fun target leads phi isPlaced noneInForce => ?_⟩, supplied,
    fun target => ?_⟩
  · exact ⟨_, opened.dests_eq ▸ List.mem_map_of_mem isPlaced, opened.mid_of_mem phi isPlaced⟩
  · exact fun isFresh => supplied.notMem taken isFresh (inForce var taken held)
  · obtain ⟨original, inside, key, rfl⟩ := FlowGraph.exists_of_rekeyed rekeyed isMaker
    obtain ⟨dest, ty, rfl⟩ := grown.isUndef original (moreIs ▸ inside)
    exact ⟨dest, ty, key, rfl⟩
  · rw [makerDests, moreIs]
    rw [areUndefs] at held
    exact (grown.cases var made held).resolve_left (by simp)
  · -- The walk changes what merges hold, but not the variables they are for.
    have isVar := List.mem_map_of_mem (f := PendingPhi.var) isPlaced
    rw [← progress.map_var_phis] at isVar
    obtain ⟨original, inside, same⟩ := List.mem_map.1 isVar
    rw [← same] at noneInForce ⊢
    refine valued target leads { original with
      dest := if target = name then record.mid.getD original.var "" else original.dest } ?_
      noneInForce
    rw [getD_named isPending]
    exact List.mem_map_of_mem inside
  · rw [nextPhis, getD_named isPending]
    split
    · rw [List.map_map]
      rfl
    · simp only [List.append_nil]

/-- A visit of one more block keeps the invariant. -/
theorem step (nodup : graph.names.Nodup)
    (progress : Progress graph dominance records done state) (isNew : name ∉ done)
    (inForce : ∀ var other, scope.get? var = some other → other ∈ state.names.taken)
    (visited : Visited name scope state (records name) next) :
    Progress graph dominance records (done ++ [name]) next := by
  obtain ⟨settled, supplied, phis_eq⟩ := progress.advances nodup isNew inForce visited
  obtain ⟨rfl, _, _, _, _, undefs, _, _, _, _, _, _, _, _, graph_eq⟩ := visited
  refine ⟨?_, ?_, ?_, fun target => ?_, ?_, fun other inside var taken held => ?_,
    fun other inside => ?_⟩
  · rw [graph_eq, ← progress.name_eq]
  · rw [graph_eq, ← progress.params_eq]
  · -- The block is finished now; those visited before stay finished.
    rw [graph_eq]
    dsimp only
    rw [progress.blocks_eq, List.map_map]
    refine List.map_congr_left fun other _ => ?_
    rw [Function.comp_apply]
    by_cases isDone : other.name ∈ done
    · have apart : other.name ≠ name := fun same => isNew (same ▸ isDone)
      simp [isDone, apart]
    · by_cases same : other.name = name
      · simp [same, isNew]
      · simp [isDone, same]
  · rw [phis_eq, progress.phis_eq, List.map_map]
    refine List.map_congr_left fun phi _ => ?_
    by_cases same : target = name
    · subst same
      by_cases leads : target ∈ graph.successorsOf target <;> simp [leads, isNew]
    · by_cases leads : target ∈ graph.successorsOf name <;> simp [leads, same]
  · rw [List.flatMap_append, List.flatMap_singleton]
    exact progress.supplied.append supplied
  · rcases List.mem_append.1 inside with isDone | isName
    · exact supplied.mono (progress.out_taken other isDone var taken held)
    · obtain rfl := List.mem_singleton.1 isName
      rw [supplied.mem_iff]
      rcases settled.out_cases held with isDest | isResult | above
      · exact .inr (List.mem_append_left _ (List.mem_append_left _ isDest))
      · exact .inr (List.mem_append_left _ (List.mem_append_right _ isResult))
      · exact .inl (inForce var taken above)
  · rcases List.mem_append.1 inside with isDone | isName
    · exact progress.settled other isDone
    · exact List.mem_singleton.1 isName ▸ settled

end Progress

/-! ## The finished flow graph -/

/-- A merge as an instruction. -/
def PendingPhi.toInstr (phi : PendingPhi) : Instr :=
  Instr.phi phi.dest phi.ty (phi.incoming.map Prod.snd) (phi.incoming.map Prod.fst)

/-- Merges are put in front of their blocks. -/
theorem insertPhis_spec {graph after : FlowGraph} {list : List (String × List PendingPhi)}
    {log : Log} (nodup : (list.map Prod.fst).Nodup)
    (inserted : insertPhis graph list = .ok (after, log)) :
    after.name = graph.name ∧ after.params = graph.params ∧
      List.Forall₂ (fun block image => image.name = block.name ∧
        (block.name ∉ list.map Prod.fst → image.instrs = block.instrs) ∧
        ∀ phis, (block.name, phis) ∈ list → ∃ keyed,
          List.Forall₂ FlowGraph.Rekeyed (phis.map PendingPhi.toInstr) keyed ∧
            image.instrs = keyed ++ block.instrs) graph.blocks after.blocks := by
  induction list generalizing graph log with
  | nil =>
    obtain ⟨rfl, _⟩ := Prod.mk.inj (Except.ok.inj inserted)
    refine ⟨rfl, rfl, List.forall₂_same.2 fun block _ => ⟨rfl, fun _ => rfl, ?_⟩⟩
    intro phis member
    cases member
  | cons head rest restIH =>
    obtain ⟨name, phis⟩ := head
    rw [List.map_cons, List.nodup_cons] at nodup
    rw [insertPhis] at inserted
    obtain ⟨⟨keyed, middle⟩, areKeyed, inserted⟩ := Attempt.bind_eq_ok.1 inserted
    obtain ⟨⟨last, more⟩, insertedRest, inserted⟩ := Attempt.bind_eq_ok.1 inserted
    obtain ⟨rfl, _⟩ := Prod.mk.inj (Except.ok.inj inserted)
    obtain ⟨rekeyed, rfl⟩ := FlowGraph.freshKeys_eq_ok areKeyed
    obtain ⟨name_eq, params_eq, blocks⟩ := restIH nodup.2 insertedRest
    refine ⟨name_eq, params_eq, ?_⟩
    rw [FlowGraph.modifyBlock, List.forall₂_map_left_iff] at blocks
    refine blocks.imp fun block image facts => ?_
    obtain ⟨name_eq, unlisted, listed⟩ := facts
    by_cases same : block.name = name
    · -- This is the block; the other merges leave it alone.
      subst same
      rw [if_pos rfl] at name_eq unlisted
      have instrs_eq := unlisted nodup.1
      rw [Block.insertAt, List.take_zero, List.nil_append, List.drop_zero] at instrs_eq
      refine ⟨name_eq, fun absent => absurd (List.mem_cons_self ..) absent, fun others member => ?_⟩
      rcases List.mem_cons.1 member with sameEntry | inRest
      · obtain rfl := (Prod.mk.inj sameEntry).2
        exact ⟨keyed, rekeyed, instrs_eq⟩
      · exact absurd (List.mem_map_of_mem inRest) nodup.1
    · rw [if_neg same] at name_eq unlisted listed
      refine ⟨name_eq, fun absent => unlisted fun inRest => absent (List.mem_cons_of_mem _ inRest),
        fun others member => ?_⟩
      rcases List.mem_cons.1 member with sameEntry | inRest
      · exact absurd (Prod.mk.inj sameEntry).1 same
      · exact listed others inRest

/-- The blocks that lead to a block, in the order of the walk. -/
def sourcesOf (graph : FlowGraph) (dominance : Dominance) (name : String) : List String :=
  dominance.tree.preorder.filter fun source => name ∈ graph.successorsOf source

/-- The merges of a block as they are in the end. -/
def mergesOf (graph : FlowGraph) (dominance : Dominance) (records : String → Renamed)
    (name : String) : List Instr :=
  ((placePhis graph dominance).getD name []).map fun phi =>
    Instr.phi ((records name).mid.getD phi.var "") phi.ty
      ((sourcesOf graph dominance name).map fun source => (records source).value phi.var)
      (sourcesOf graph dominance name)

/-- The names in force at the entry: the parameters. -/
def startScope (graph : FlowGraph) : Scope :=
  .ofList (graph.paramNames.map fun name => (name, name))

/-- What the records say about the finished flow graph. -/
structure Recorded (graph after : FlowGraph) (dominance : Dominance)
    (records : String → Renamed) : Prop where
  /-- Blocks of the original flow graph have names of their own. -/
  nodup_names : graph.names.Nodup
  /-- All of them are reachable. -/
  reachable : ∀ block ∈ graph.blocks, graph.Reachable block.name
  /-- The dominators are those of the flow graph. -/
  built : dominance.Built graph.successorMap graph.entryName
  /-- The function keeps its name. -/
  name_eq : after.name = graph.name
  /-- The parameters stay. -/
  params_eq : after.params = graph.params
  /-- Each block has its merges and its renamed instructions. -/
  blocks : List.Forall₂ (fun block image => image.name = block.name ∧ ∃ phis,
    List.Forall₂ FlowGraph.Rekeyed (mergesOf graph dominance records block.name) phis ∧
      image.instrs = phis ++ ((records block.name).finish block).instrs) graph.blocks after.blocks
  /-- New names were not taken, and no two are the same. -/
  supplied : ∃ names, Supplied (IsStem graph) (.ofGraph graph)
    (dominance.tree.preorder.flatMap fun name => (records name).fresh) names
  /-- All blocks were visited. -/
  settled : ∀ name, graph.Reachable name → Settled graph dominance name (records name)
  /-- The parameters are in force above the entry. -/
  inherited_entry : (records graph.entryName).inherited = startScope graph
  /-- What is in force at the end of a block is in force above those below it. -/
  inherited_eq : ∀ upper name, Immediate graph.Leads graph.entryName upper name →
    (records name).inherited = (records upper).out

/-- What the records say about a flow graph that was well-formed and without merges. -/
structure Converted (graph after : FlowGraph) (dominance : Dominance)
    (records : String → Renamed) : Prop extends Recorded graph after dominance records where
  /-- The original flow graph is well-formed. -/
  wellFormed : graph.WellFormed
  /-- It has no merges. -/
  unmerged : ∀ block ∈ graph.blocks, ∀ instr ∈ block.instrs, instr.isPhi = false

/-- Parameters are in force under their own names. -/
theorem get?_startScope {graph : FlowGraph} {var name : String} :
    (startScope graph).get? var = some name ↔ var ∈ graph.paramNames ∧ name = var := by
  rw [startScope, SortedMap.ofList, SortedMap.get?_insertAll, SortedMap.get?_empty, Option.or_none]
  constructor
  · intro found
    obtain ⟨entry, isEntry, rfl⟩ := Option.map_eq_some_iff.1 found
    have member := List.mem_reverse.1 (List.mem_of_find?_eq_some isEntry)
    have same : entry.1 = var := by simpa using List.find?_some isEntry
    obtain ⟨param, inside, rfl⟩ := List.mem_map.1 member
    exact ⟨same ▸ inside, same⟩
  · rintro ⟨member, rfl⟩
    cases found : (graph.paramNames.map fun name => (name, name)).reverse.find?
        fun entry => entry.1 = name with
    | none =>
      have refused := List.find?_eq_none.1 found (name, name)
        (List.mem_reverse.2 (List.mem_map_of_mem member))
      simp at refused
    | some entry =>
      have inside := List.mem_reverse.1 (List.mem_of_find?_eq_some found)
      have same : entry.1 = name := by simpa using List.find?_some found
      obtain ⟨param, _, rfl⟩ := List.mem_map.1 inside
      rw [Option.map_some, ← same]

/-- The walk leaves records of all reachable blocks. -/
theorem exists_records {graph : FlowGraph} {dominance : Dominance} {last : Renaming}
    (nodup_names : graph.names.Nodup)
    (built : dominance.Built graph.successorMap graph.entryName)
    (walked : renameTree dominance.tree (startScope graph)
      { graph, phis := placePhis graph dominance, names := .ofGraph graph } = .ok last) :
    ∃ records, Progress graph dominance records dominance.tree.preorder last ∧
      (records graph.entryName).inherited = startScope graph ∧
      ∀ upper name, Immediate graph.Leads graph.entryName upper name →
        (records name).inherited = (records upper).out := by
  rw [renameTree_eq_walk] at walked
  obtain ⟨members, nodup, parents⟩ := built.tree_spec
  rw [FlowGraph.succeeds_successorMap nodup_names] at members parents
  obtain ⟨records, walk⟩ := Dominance.Tree.exists_walk renameBlock
    (fun renamed => visited_of_renameBlock renamed) nodup walked
  refine ⟨records, ?_, ?_, ?_⟩
  · have finished := walk.invariant (Progress graph dominance records) []
      (Progress.start built records)
      (fun before name parent after state next split progress visited => ?_)
    · rwa [List.nil_append, Dominance.Tree.map_fst_visits] at finished
    · rw [List.nil_append] at split
      refine progress.step nodup_names ?_ ?_ visited
      · rw [← Dominance.Tree.map_fst_visits none, split, List.map_append, List.map_cons] at nodup
        intro inside
        exact (List.nodup_append.1 nodup).2.2 name inside name (List.mem_cons_self ..) rfl
      · intro var other held
        cases parent with
        | none =>
          -- The parameters are taken from the start.
          obtain ⟨isParam, rfl⟩ := get?_startScope.1 held
          refine progress.supplied.mono (SortedSet.mem_ofList.2 ?_)
          exact List.mem_append_left _ isParam
        | some upper =>
          rcases Dominance.Tree.parent_visited _ split with impossible | isDone
          · cases impossible
          · exact progress.out_taken upper isDone var other held
  · obtain ⟨rest, isFirst⟩ := built.exists_visits_eq
    obtain ⟨_, _, visited⟩ := walk.exists_visit (isFirst ▸ List.mem_cons_self ..)
    exact visited.inherited_eq
  · intro upper name immediate
    have inside := (members name).2 immediate.strict.2.reaches
    rw [← Dominance.Tree.map_fst_visits none] at inside
    obtain ⟨⟨_, parent⟩, member, rfl⟩ := List.mem_map.1 inside
    obtain ⟨_, _, visited⟩ := walk.exists_visit member
    rcases parents _ _ member with ⟨isEntry, _⟩ | ⟨above, rfl, isAbove⟩
    · exact absurd isEntry immediate.strict.ne_start
    · rw [← isAbove.unique immediate]
      exact visited.inherited_eq

/-- The steps of the conversion of a flow graph in which no block starts with merges. -/
theorem construct_eq {graph : FlowGraph} (nonempty : graph.blocks ≠ [])
    (unmerged : ∀ block ∈ graph.blocks, block.phis = []) :
    construct graph = (do
      let pruned := graph.removeUnreachable.2
      let dominance ← Dominance.ofFlowGraph pruned
      let state ← renameTree dominance.tree (startScope pruned)
        { graph := pruned, phis := placePhis pruned dominance, names := .ofGraph pruned }
      let (after, insertions) ← insertPhis state.graph state.phis.toList
      return (after, (graph.removeUnreachable.1.map fun block =>
        event pruned .blockRemoved block "unreachable") ++ state.log ++ insertions)) := by
  have noPhis : graph.blocks.find? (fun block => block.phiCount ≠ 0) = none :=
    List.find?_eq_none.2 fun block member => by simp [Block.phiCount, unmerged block member]
  have isSome : graph.blocks.isEmpty = false := by simpa using nonempty
  rw [construct, noPhis]
  simp only [isSome]
  rfl

/-- The dominance of a flow graph is built from its edges. -/
theorem built_of_ofFlowGraph {graph : FlowGraph} {dominance : Dominance}
    (found : Dominance.ofFlowGraph graph = .ok dominance) :
    dominance.Built graph.successorMap graph.entryName := by
  unfold Dominance.ofFlowGraph at found
  unfold FlowGraph.entryName
  cases isBlocks : graph.blocks with
  | nil =>
    rw [isBlocks] at found
    cases found
  | cons first rest =>
    rw [isBlocks] at found
    rcases Dominance.ofSuccessors_cases graph.successorMap first.name with
      ⟨other, isOther, built⟩ | ⟨_, _, failed⟩
    · obtain rfl := Except.ok.inj (isOther.symm.trans found)
      exact built
    · cases failed.symm.trans found

/-- How a flow graph is converted: what is reachable is walked down, and then merges are inserted. -/
structure Construction (graph after pruned : FlowGraph) (dominance : Dominance) (last : Renaming) :
    Prop where
  /-- Reachable blocks are kept. -/
  exists_keep : ∃ keep : Block → Bool,
    (∀ block ∈ graph.blocks, keep block = true ↔ graph.Reachable block.name) ∧
      pruned = { graph with blocks := graph.blocks.filter keep }
  /-- They have names of their own. -/
  nodup_names : pruned.names.Nodup
  /-- They stay reachable. -/
  reachable : ∀ block ∈ pruned.blocks, pruned.Reachable block.name
  /-- The dominators are theirs. -/
  built : dominance.Built pruned.successorMap pruned.entryName
  /-- They are walked down. -/
  walked : renameTree dominance.tree (startScope pruned)
    { graph := pruned, phis := placePhis pruned dominance, names := .ofGraph pruned } = .ok last
  /-- Merges are inserted. -/
  inserted : ∃ insertions, insertPhis last.graph last.phis.toList = .ok (after, insertions)

/-- Before the walk, no instruction is added and no key is used up. -/
theorem Construction.kept {graph after pruned : FlowGraph} {dominance : Dominance} {last : Renaming}
    (construction : Construction graph after pruned dominance last) :
    pruned.params = graph.params ∧ pruned.nextKey = graph.nextKey ∧
      pruned.instrs.Sublist graph.instrs := by
  obtain ⟨keep, _, rfl⟩ := construction.exists_keep
  exact ⟨rfl, rfl, List.filter_sublist.flatMap Block.instrs⟩

/-- A flow graph with blocks that is converted goes through these steps. -/
theorem exists_construction {graph after : FlowGraph} {log : Log} (nodup : graph.names.Nodup)
    (nonempty : graph.blocks ≠ []) (constructed : construct graph = .ok (after, log)) :
    ∃ pruned dominance last, Construction graph after pruned dominance last := by
  have unmerged : ∀ block ∈ graph.blocks, block.phis = [] := by
    intro block member
    cases found : graph.blocks.find? fun block => block.phiCount ≠ 0 with
    | none => simpa [Block.phiCount] using List.find?_eq_none.1 found block member
    | some other =>
      rw [construct, found] at constructed
      cases constructed
  rw [construct_eq nonempty unmerged] at constructed
  obtain ⟨keep, kept, isPruned⟩ := FlowGraph.removeUnreachable_of_unmerged nodup unmerged
  rw [isPruned] at constructed
  dsimp only at constructed
  generalize isGraph : ({ graph with blocks := graph.blocks.filter keep } : FlowGraph) = pruned
    at constructed
  have blocks_eq : pruned.blocks = graph.blocks.filter keep := by rw [← isGraph]
  obtain ⟨_, mem_blocks, reachable⟩ :=
    FlowGraph.reachable_of_filter nodup nonempty keep blocks_eq kept
  obtain ⟨dominance, isDominance, constructed⟩ := Attempt.bind_eq_ok.1 constructed
  obtain ⟨last, walked, constructed⟩ := Attempt.bind_eq_ok.1 constructed
  obtain ⟨⟨final, insertions⟩, inserted, constructed⟩ := Attempt.bind_eq_ok.1 constructed
  obtain ⟨rfl, _⟩ := Prod.mk.inj (Except.ok.inj constructed)
  refine ⟨pruned, dominance, last, ⟨keep, kept, isGraph.symm⟩, ?_,
    fun block member => reachable _ ((mem_blocks block).1 member).2,
    built_of_ofFlowGraph isDominance, walked, insertions, inserted⟩
  rw [FlowGraph.names, blocks_eq]
  exact nodup.sublist (List.filter_sublist.map _)

/-- The records say what became of each block. -/
theorem Construction.exists_recorded {graph after pruned : FlowGraph} {dominance : Dominance}
    {last : Renaming} (construction : Construction graph after pruned dominance last) :
    ∃ records, Recorded pruned after dominance records := by
  obtain ⟨_, nodup, reachable, built, walked, _, inserted⟩ := construction
  obtain ⟨records, progress, inheritedEntry, inherited⟩ := exists_records nodup built walked
  obtain ⟨members, _, _⟩ := built.tree_spec
  rw [FlowGraph.succeeds_successorMap nodup] at members
  obtain ⟨name_eq, params_eq, blocks⟩ := insertPhis_spec last.phis.nodup_keys inserted
  refine ⟨records, nodup, reachable, built, name_eq.trans progress.name_eq,
    params_eq.trans progress.params_eq, ?_, ⟨_, progress.supplied⟩,
    fun name reached => progress.settled name ((members name).2 reached), inheritedEntry, inherited⟩
  rw [progress.blocks_eq, List.forall₂_map_left_iff] at blocks
  refine forall₂_imp_of_mem blocks fun block member image facts => ?_
  have isDone := (members _).2 (reachable block member)
  rw [if_pos isDone] at facts
  obtain ⟨name_eq, unlisted, listed⟩ := facts
  rw [Renamed.name_finish] at name_eq unlisted listed
  refine ⟨name_eq, ?_⟩
  have isMerges : mergesOf pruned dominance records block.name =
      (last.phis.getD block.name []).map PendingPhi.toInstr := by
    rw [progress.phis_eq, List.map_map, mergesOf]
    refine List.map_congr_left fun phi _ => ?_
    simp [PendingPhi.toInstr, isDone, sourcesOf, List.map_map, Function.comp_def]
  rw [isMerges, SortedMap.getD]
  cases found : last.phis.get? block.name with
  | none =>
    refine ⟨[], .nil, unlisted fun isKey => ?_⟩
    obtain ⟨phis, isPhis⟩ := SortedMap.mem_keys.1 isKey
    rw [found] at isPhis
    cases isPhis
  | some phis => exact listed phis (SortedMap.get?_eq_some_iff.1 found)

/-- The conversion of a flow graph without merges removes what is not reachable and converts the
rest. -/
theorem converted_of_construct {graph after : FlowGraph} {log : Log}
    (wellFormed : graph.WellFormed)
    (unmerged : ∀ block ∈ graph.blocks, ∀ instr ∈ block.instrs, instr.isPhi = false)
    (constructed : construct graph = .ok (after, log)) :
    ∃ pruned dominance records, FlowGraph.Pruned graph pruned ∧
      Converted pruned after dominance records := by
  obtain ⟨pruned, dominance, last, construction⟩ :=
    exists_construction wellFormed.nodup_names wellFormed.nonempty constructed
  obtain ⟨records, recorded⟩ := construction.exists_recorded
  obtain ⟨keep, kept, rfl⟩ := construction.exists_keep
  have isPruned : FlowGraph.Pruned graph { graph with blocks := graph.blocks.filter keep } :=
    FlowGraph.pruned_of_filter wellFormed rfl rfl rfl keep rfl kept
  exact ⟨_, dominance, records, isPruned, recorded, isPruned.wellFormed,
    fun block member => unmerged block ((isPruned.mem_blocks block).1 member).1⟩

end Ssa

end Midend
