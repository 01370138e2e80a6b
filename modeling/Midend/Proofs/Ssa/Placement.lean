import Midend.Proofs.FlowGraph.WellFormed
import Midend.Ssa.Construct

/-! # Placement of merges

The blocks where a variable is merged are closed under frontiers: whatever lies on the frontier of a
block that writes or merges the variable merges it too (`Ssa.placed_of_frontier`). The worklist that
finds them never runs out of steps, since every block is followed once at most. -/

namespace Midend

namespace Ssa

/-! ## Writes -/

/-- A block writes a variable: one of its instructions does, or it is the entry and the variable a
parameter. -/
def Writes (graph : FlowGraph) (block var : String) : Prop := ∃ ty, (var, ty, block) ∈ writes graph

/-- The instructions of a block write their variables there. -/
theorem writes_of_mem {graph : FlowGraph} {block : Block} (member : block ∈ graph.blocks)
    {instr : Instr} (inside : instr ∈ block.instrs) {var : String}
    (isDest : instr.dest? = some var) : Writes graph block.name var := by
  obtain ⟨ty, isTy⟩ : ∃ ty, instr.ty? = some ty := by
    unfold Instr.dest? Action.dest? at isDest
    unfold Instr.ty? Action.ty?
    split at isDest
    · exact ⟨_, rfl⟩
    · exact ⟨_, rfl⟩
    · cases isDest
  refine ⟨ty, List.mem_append_right _ (List.mem_flatMap.2 ⟨block, member, ?_⟩)⟩
  exact List.mem_filterMap.2 ⟨instr, inside, by rw [isDest, isTy]⟩

/-- The blocks that write a variable, as a set. -/
theorem mem_definingBlocks {graph : FlowGraph} {block var : String} :
    block ∈ (definingBlocks graph).getD var .empty ↔ Writes graph block var := by
  have general : ∀ (list : List (String × Ty × String)) (map : SortedMap String (SortedSet String)),
      block ∈ (list.foldl (fun blocks entry =>
        blocks.alter entry.1 fun known => (known.getD .empty).insert entry.2.2) map).getD var .empty ↔
      block ∈ map.getD var .empty ∨ ∃ ty, (var, ty, block) ∈ list := by
    intro list
    induction list with
    | nil => simp
    | cons entry rest restIH =>
      intro map
      obtain ⟨name, ty, writer⟩ := entry
      rw [List.foldl_cons, restIH]
      by_cases same : var = name
      · subst same
        simp only [SortedMap.getD, SortedMap.get?_alter, if_true, Option.getD_some,
          SortedSet.mem_insert, List.mem_cons, Prod.mk.injEq, true_and, exists_or]
        constructor
        · rintro ((rfl | before) | later)
          · exact .inr (.inl ⟨ty, rfl, rfl⟩)
          · exact .inl before
          · exact .inr (.inr later)
        · rintro (before | ⟨_, _, rfl⟩ | later)
          · exact .inl (.inr before)
          · exact .inl (.inl rfl)
          · exact .inr later
      · simp [SortedMap.getD, same]
  refine (general (writes graph) .empty).trans ?_
  simp [SortedMap.getD, Writes]

/-- A variable that is written has a type. -/
theorem exists_type {graph : FlowGraph} {block var : String} (isWritten : Writes graph block var) :
    ∃ ty, (variableTypes graph).get? var = some ty := by
  have general : ∀ (list : List (String × Ty × String)) (map : SortedMap String Ty),
      (∃ ty, map.get? var = some ty) ∨ (∃ ty block, (var, ty, block) ∈ list) →
      ∃ ty, (list.foldl (fun types entry => types.insertIfNew entry.1 entry.2.1) map).get? var =
        some ty := by
    intro list
    induction list with
    | nil => simp
    | cons entry rest restIH =>
      intro map known
      obtain ⟨name, ty, writer⟩ := entry
      rw [List.foldl_cons]
      apply restIH
      by_cases same : var = name
      · exact .inl (by simp [same])
      · rcases known with known | ⟨other, block, member⟩
        · exact .inl (by simpa [same] using known)
        · rcases List.mem_cons.1 member with here | later
          · exact absurd (Prod.mk.inj here).1 same
          · exact .inr ⟨other, block, later⟩
  obtain ⟨ty, member⟩ := isWritten
  exact general _ _ (.inr ⟨ty, block, member⟩)

/-- The type of a variable is that of one of its writes. -/
theorem exists_write_of_type {graph : FlowGraph} {var : String} {ty : Ty}
    (found : (variableTypes graph).get? var = some ty) : ∃ block, (var, ty, block) ∈ writes graph := by
  have general : ∀ (list : List (String × Ty × String)) (map : SortedMap String Ty),
      (list.foldl (fun types entry => types.insertIfNew entry.1 entry.2.1) map).get? var = some ty →
        map.get? var = some ty ∨ ∃ block, (var, ty, block) ∈ list := by
    intro list
    induction list with
    | nil => exact fun map => .inl
    | cons entry rest restIH =>
      intro map found
      obtain ⟨name, other, writer⟩ := entry
      rw [List.foldl_cons] at found
      rcases restIH _ found with before | ⟨block, later⟩
      · rw [SortedMap.get?_insertIfNew] at before
        split at before
        · rename_i same
          subst same
          cases known : map.get? var with
          | some earlier => exact .inl (by simpa [known] using before)
          | none =>
            obtain rfl : other = ty := by simpa [known] using before
            exact .inr ⟨writer, List.mem_cons_self ..⟩
        · exact .inl before
      · exact .inr ⟨block, List.mem_cons_of_mem _ later⟩
  rcases general _ _ found with impossible | known
  · rw [SortedMap.get?_empty] at impossible
    cases impossible
  · exact known

/-- A variable that has a type is written. -/
theorem exists_writes_of_type {graph : FlowGraph} {var : String} {ty : Ty}
    (found : (variableTypes graph).get? var = some ty) : ∃ block, Writes graph block var := by
  obtain ⟨block, member⟩ := exists_write_of_type found
  exact ⟨block, ty, member⟩

/-- What a block writes is a parameter or the result of one of its instructions. -/
theorem writes_cases {graph : FlowGraph} {name var : String} (isWritten : Writes graph name var) :
    (name = graph.entryName ∧ var ∈ graph.paramNames) ∨
      ∃ block ∈ graph.blocks, block.name = name ∧
        ∃ instr ∈ block.instrs, instr.dest? = some var := by
  obtain ⟨ty, member⟩ := isWritten
  rcases List.mem_append.1 member with isParam | isResult
  · obtain ⟨param, inside, same⟩ := List.mem_map.1 isParam
    obtain ⟨rfl, rest⟩ := Prod.mk.inj same
    obtain ⟨_, isEntry⟩ := Prod.mk.inj rest
    exact .inl ⟨isEntry.symm, List.mem_map_of_mem inside⟩
  · obtain ⟨block, inside, isResult⟩ := List.mem_flatMap.1 isResult
    obtain ⟨instr, inBlock, found⟩ := List.mem_filterMap.1 isResult
    split at found
    · rename_i dest other isDest isTy
      obtain ⟨rfl, rfl, rfl⟩ : dest = var ∧ other = ty ∧ block.name = name := by simpa using found
      exact .inr ⟨block, inside, rfl, instr, inBlock, isDest⟩
    · cases found

/-! ## The worklist -/

section Worklist

variable {frontier : String → List String} {defining : SortedSet String}

/-- Following frontiers only adds blocks, and only blocks on the frontier of some block. -/
theorem mem_placeFrom {budget : Nat} {worklist : List String} {placed : SortedSet String}
    {block : String} (member : block ∈ placeFrom frontier defining budget worklist placed) :
    block ∈ placed ∨ ∃ other, block ∈ frontier other := by
  induction budget generalizing worklist placed with
  | zero => exact .inl member
  | succ budget budgetIH =>
    cases worklist with
    | nil => exact .inl member
    | cons head worklist =>
      rcases budgetIH member with before | found
      · rw [SortedSet.mem_insertAll] at before
        rcases before with found | before
        · exact .inr ⟨head, (List.mem_filter.1 found).1⟩
        · exact .inl before
      · exact .inr found

/-- The blocks that are not placed yet. -/
def unplaced (everything : List String) (placed : SortedSet String) : List String :=
  everything.filter fun name => !placed.contains name

/-- A step takes a block off the worklist, and puts there only blocks that it places: what is found
leaves the blocks not placed, so the measure goes down. -/
theorem placeFrom_enough {everything : List String} (nodup : everything.Nodup)
    (frontierNodup : ∀ block, (frontier block).Nodup)
    (frontierSubset : ∀ block, frontier block ⊆ everything) (defining : SortedSet String)
    {budget : Nat} {head : String} {worklist : List String} {placed : SortedSet String}
    (enough : (head :: worklist).length + (unplaced everything placed).length ≤ budget + 1) :
    ((((frontier head).filter fun name => !placed.contains name).filter fun name =>
        !defining.contains name).reverse ++ worklist).length +
      (unplaced everything (((frontier head).filter fun name =>
        !placed.contains name).foldl .insert placed)).length ≤ budget := by
  have subperm : (((frontier head).filter fun name => !placed.contains name) ++
      unplaced everything (((frontier head).filter fun name =>
        !placed.contains name).foldl .insert placed)).Subperm (unplaced everything placed) := by
    refine List.Nodup.subperm ?_ ?_
    · refine List.nodup_append.2 ⟨(frontierNodup head).filter _, nodup.filter _, ?_⟩
      rintro name found other remaining rfl
      have absent := (List.mem_filter.1 remaining).2
      rw [Bool.not_eq_true', ← Bool.not_eq_true, SortedSet.contains_iff,
        SortedSet.mem_insertAll] at absent
      exact absent (.inl found)
    · intro name member
      rcases List.mem_append.1 member with found | remaining
      · obtain ⟨onFrontier, absent⟩ := List.mem_filter.1 found
        exact List.mem_filter.2 ⟨frontierSubset head onFrontier, absent⟩
      · obtain ⟨inside, absent⟩ := List.mem_filter.1 remaining
        refine List.mem_filter.2 ⟨inside, ?_⟩
        rw [Bool.not_eq_true', ← Bool.not_eq_true, SortedSet.contains_iff] at absent ⊢
        exact fun before => absent (SortedSet.mem_insertAll.2 (.inr before))
  have lengths := subperm.length_le
  have fewer := List.length_filter_le (fun name => !defining.contains name)
    ((frontier head).filter fun name => !placed.contains name)
  simp only [List.length_append, List.length_reverse, List.length_cons] at lengths enough ⊢
  omega

/-- With enough steps, everything on the frontier of a block that is placed or defining gets placed.
Each step takes a block off the worklist, and each block that is put there was not placed before. -/
theorem placeFrom_closed {everything : List String} (nodup : everything.Nodup)
    (frontierNodup : ∀ block, (frontier block).Nodup)
    (frontierSubset : ∀ block, frontier block ⊆ everything) {budget : Nat} {worklist : List String}
    {placed : SortedSet String}
    (enough : worklist.length + (unplaced everything placed).length ≤ budget)
    (open' : ∀ block, block ∈ defining ∨ block ∈ placed → block ∈ worklist ∨
      ∀ target ∈ frontier block, target ∈ placed) :
    ∀ block, block ∈ defining ∨ block ∈ placeFrom frontier defining budget worklist placed →
      ∀ target ∈ frontier block, target ∈ placeFrom frontier defining budget worklist placed := by
  induction budget generalizing worklist placed with
  | zero =>
    have empty : worklist = [] := List.eq_nil_of_length_eq_zero (by omega)
    intro block held
    exact (open' block held).resolve_left (by simp [empty])
  | succ budget budgetIH =>
    cases worklist with
    | nil => exact fun block held => (open' block held).resolve_left (by simp)
    | cons head worklist =>
      rw [placeFrom]
      apply budgetIH
      · exact placeFrom_enough nodup frontierNodup frontierSubset defining enough
      · intro block held
        have grows : ∀ {name}, name ∈ placed → name ∈ ((frontier head).filter fun name =>
            !placed.contains name).foldl SortedSet.insert placed := fun before =>
          SortedSet.mem_insertAll.2 (.inr before)
        -- What was placed or defining before is still to do, or done.
        have before : block ∈ defining ∨ block ∈ placed →
            block ∈ (((frontier head).filter fun name => !placed.contains name).filter
              fun name => !defining.contains name).reverse ++ worklist ∨
            ∀ target ∈ frontier block, target ∈ ((frontier head).filter fun name =>
              !placed.contains name).foldl SortedSet.insert placed := by
          intro held
          rcases open' block held with toDo | done
          · rcases List.mem_cons.1 toDo with rfl | later
            · right
              intro target onFrontier
              by_cases known : target ∈ placed
              · exact grows known
              · refine SortedSet.mem_insertAll.2 (.inl (List.mem_filter.2 ⟨onFrontier, ?_⟩))
                rwa [Bool.not_eq_true', ← Bool.not_eq_true, SortedSet.contains_iff]
            · exact .inl (List.mem_append_right _ later)
          · exact .inr fun target onFrontier => grows (done target onFrontier)
        rcases held with isDefining | isPlaced
        · exact before (.inl isDefining)
        · rcases SortedSet.mem_insertAll.1 isPlaced with found | known
          · by_cases isDefining : block ∈ defining
            · exact before (.inl isDefining)
            · left
              refine List.mem_append_left _ (List.mem_reverse.2 (List.mem_filter.2 ⟨found, ?_⟩))
              rwa [Bool.not_eq_true', ← Bool.not_eq_true, SortedSet.contains_iff]
          · exact before (.inr known)

end Worklist

/-! ## The merges of a block -/

section Placed

variable {graph : FlowGraph} {dominance : Dominance} {successors : SortedMap String (List String)}
  {entry : String}

/-- The table of frontiers holds the frontier of every block. -/
theorem getD_frontierTable (built : dominance.Built successors entry) (block : String) :
    (frontierTable dominance).getD block [] = dominance.frontier block := by
  -- The table has an entry for every reachable block, and the frontier of any other one is empty.
  have listed : ∀ name, name ∈ dominance.blocks ↔ Reaches (Succeeds successors) entry name := by
    intro name
    have fits : dominance.reachable.Fits := by
      rw [built.reachable_eq]
      exact Digraph.fits_reachable _ _
    simp only [Dominance.blocks, List.mem_map, fits.mem_toList, built.mem_reachable]
    constructor
    · rintro ⟨node, reached, rfl⟩
      exact (built.reaches_nameOf (Digraph.lt_of_reaches built.entry_lt reached)).2 reached
    · intro reached
      obtain ⟨node, found⟩ := built.exists_index? reached
      obtain ⟨below, rfl, _⟩ := built.index?_eq_some_iff.1 found
      exact ⟨node, (built.reaches_nameOf below).1 reached, rfl⟩
  have general : ∀ names : List String, ((SortedMap.ofList (names.map fun name =>
      (name, dominance.frontier name))).get? block) =
        if block ∈ names then some (dominance.frontier block) else none := by
    intro names
    rw [SortedMap.ofList, SortedMap.get?_insertAll, SortedMap.get?_empty, Option.or_none]
    cases found : (names.map fun name => (name, dominance.frontier name)).reverse.find?
        fun entry => entry.1 = block with
    | none =>
      have absent : block ∉ names := by
        intro member
        have refused := List.find?_eq_none.1 found (block, dominance.frontier block)
          (List.mem_reverse.2 (List.mem_map_of_mem member))
        simp at refused
      rw [if_neg absent, Option.map_none]
    | some entry =>
      have member := List.mem_reverse.1 (List.mem_of_find?_eq_some found)
      obtain ⟨name, isName, rfl⟩ := List.mem_map.1 member
      have same : name = block := by simpa using List.find?_some found
      subst same
      rw [if_pos isName, Option.map_some]
  rw [frontierTable, SortedMap.getD, general]
  split
  · rfl
  · rename_i absent
    rw [Dominance.frontier]
    cases found : dominance.index? block with
    | none => rfl
    | some node => exact absurd ((listed block).2 (built.index?_eq_some_iff.1 found).2.2) absent

/-- The merges of one variable, each with its block. -/
def placementsOf (graph : FlowGraph) (dominance : Dominance) (var : String)
    (defining : SortedSet String) : List (String × PendingPhi) :=
  match (variableTypes graph).get? var with
  | some ty => (phiBlocks dominance (frontierTable dominance) defining).toList.map fun block =>
      (block, { var, ty })
  | none => []

/-- The merges of a flow graph before they are put into a map, each with its block. -/
def placements (graph : FlowGraph) (dominance : Dominance) : List (String × PendingPhi) :=
  (definingBlocks graph).toList.flatMap fun entry =>
    placementsOf graph dominance entry.1 entry.2

/-- Placing merges groups them by their blocks. -/
theorem placePhis_eq_group (graph : FlowGraph) (dominance : Dominance) :
    placePhis graph dominance = (placements graph dominance).foldl
      (fun phis entry => phis.alter entry.1 fun known => known.getD [] ++ [entry.2]) .empty := by
  rw [placePhis, SortedMap.foldl, placements]
  generalize (SortedMap.empty : PendingPhis) = phis
  induction (definingBlocks graph).toList generalizing phis with
  | nil => rfl
  | cons head rest restIH =>
    rw [List.foldl_cons, restIH, List.flatMap_cons, List.foldl_append]
    congr 1
    rw [placementsOf]
    cases (variableTypes graph).get? head.1 with
    | none => rfl
    | some ty =>
      dsimp only
      rw [List.foldl_map]

/-- The merges of a block are those placed there. -/
theorem getD_placePhis (graph : FlowGraph) (dominance : Dominance) (block : String) :
    (placePhis graph dominance).getD block [] =
      ((placements graph dominance).filter fun entry => entry.1 = block).map Prod.snd := by
  rw [placePhis_eq_group, SortedMap.getD_group]
  rfl

/-- What is placed for a variable. -/
theorem mem_placementsOf {var : String} {defining : SortedSet String}
    {entry : String × PendingPhi} :
    entry ∈ placementsOf graph dominance var defining ↔ ∃ ty,
      (variableTypes graph).get? var = some ty ∧ entry.2 = { var, ty } ∧
        entry.1 ∈ phiBlocks dominance (frontierTable dominance) defining := by
  obtain ⟨block, phi⟩ := entry
  unfold placementsOf
  cases (variableTypes graph).get? var with
  | none => simp
  | some ty => simp [and_comm, eq_comm]

/-- A block merges a variable. -/
def Placed (graph : FlowGraph) (dominance : Dominance) (block var : String) : Prop :=
  ∃ phi ∈ (placePhis graph dominance).getD block [], phi.var = var

/-- A merge in a block, from the blocks that define its variable. -/
theorem mem_placePhis {block : String} {phi : PendingPhi} :
    phi ∈ (placePhis graph dominance).getD block [] ↔ ∃ var ty defining,
      (definingBlocks graph).get? var = some defining ∧
      (variableTypes graph).get? var = some ty ∧ phi = { var, ty } ∧
      block ∈ phiBlocks dominance (frontierTable dominance) defining := by
  rw [getD_placePhis]
  simp only [placements, List.mem_map, List.mem_filter, List.mem_flatMap, decide_eq_true_eq,
    mem_placementsOf, Prod.exists, SortedMap.get?_eq_some_iff]
  constructor
  · rintro ⟨_, _, ⟨⟨var, defining, listed, ty, isTy, rfl, placed⟩, rfl⟩, rfl⟩
    exact ⟨var, ty, defining, listed, isTy, rfl, placed⟩
  · rintro ⟨var, ty, defining, listed, isTy, rfl, placed⟩
    exact ⟨block, _, ⟨⟨var, defining, listed, ty, isTy, rfl, placed⟩, rfl⟩, rfl⟩

/-- The set of blocks that is listed for a variable is that of the blocks that write it. -/
theorem mem_of_isDefining {graph : FlowGraph} {var name : String} {defining : SortedSet String}
    (isDefining : (definingBlocks graph).get? var = some defining) :
    name ∈ defining ↔ Writes graph name var := by
  rw [← mem_definingBlocks, SortedMap.getD, isDefining]
  rfl

/-- No block merges a variable twice. -/
theorem nodup_placed_vars (graph : FlowGraph) (dominance : Dominance) (block : String) :
    (((placePhis graph dominance).getD block []).map PendingPhi.var).Nodup := by
  have keysNodup := (definingBlocks graph).nodup_keys
  rw [SortedMap.keys, List.Nodup, List.pairwise_map] at keysNodup
  rw [getD_placePhis, placements, List.filter_flatMap, List.map_flatMap, List.map_flatMap,
    List.nodup_flatMap]
  refine ⟨fun entry _ => ?_, keysNodup.imp fun {left right} apart var inLeft inRight => apart ?_⟩
  · -- The blocks that merge one variable are listed once, so one of them is this block.
    have nodup : ((placementsOf graph dominance entry.1 entry.2).map Prod.fst).Nodup := by
      unfold placementsOf
      split
      · rw [List.map_map]
        exact (List.map_id _).symm ▸ SortedSet.nodup_toList _
      · exact List.nodup_nil
    rw [List.map_map]
    refine (List.nodup_map_iff_inj_on (nodup.of_map.filter _)).2 ?_
    intro left leftMem right rightMem _
    obtain ⟨leftMem, leftIs⟩ := List.mem_filter.1 leftMem
    obtain ⟨rightMem, rightIs⟩ := List.mem_filter.1 rightMem
    refine List.inj_on_of_nodup_map nodup leftMem rightMem ?_
    rw [of_decide_eq_true leftIs, of_decide_eq_true rightIs]
  · have ofVar : ∀ {entry : String × SortedSet String} {var : String}, var ∈
        (((placementsOf graph dominance entry.1 entry.2).filter fun entry =>
          entry.1 = block).map Prod.snd).map PendingPhi.var → var = entry.1 := by
      intro entry var member
      rw [List.map_map] at member
      obtain ⟨placement, inside, rfl⟩ := List.mem_map.1 member
      obtain ⟨ty, _, isPhi, _⟩ := mem_placementsOf.1 (List.mem_filter.1 inside).1
      rw [Function.comp_apply, isPhi]
    rw [← ofVar inLeft, ofVar inRight]

/-- A merge that was placed has neither a name nor values yet, and stands on a frontier. -/
theorem fresh_of_placed (built : dominance.Built successors entry) {block : String} {phi : PendingPhi}
    (member : phi ∈ (placePhis graph dominance).getD block []) :
    phi.incoming = [] ∧ ∃ other, block ∈ dominance.frontier other := by
  obtain ⟨var, ty, defining, _, _, rfl, placed⟩ := mem_placePhis.1 member
  refine ⟨rfl, ?_⟩
  rcases mem_placeFrom placed with impossible | ⟨other, onFrontier⟩
  · simp at impossible
  · rw [getD_frontierTable built] at onFrontier
    exact ⟨other, onFrontier⟩

/-- A variable that is merged is written. -/
theorem exists_writes_of_placed {block : String} {phi : PendingPhi}
    (member : phi ∈ (placePhis graph dominance).getD block []) :
    ∃ writer, Writes graph writer phi.var := by
  obtain ⟨var, ty, defining, _, isTy, rfl, _⟩ := mem_placePhis.1 member
  exact exists_writes_of_type isTy

/-- What lies on the frontier of a block that writes or merges a variable merges it. -/
theorem placed_of_frontier (built : dominance.Built successors entry) {block target var : String}
    (held : Writes graph block var ∨ Placed graph dominance block var)
    (onFrontier : target ∈ dominance.frontier block) : Placed graph dominance target var := by
  obtain ⟨defining, ty, isDefining, isTy⟩ : ∃ defining ty,
      (definingBlocks graph).get? var = some defining ∧
        (variableTypes graph).get? var = some ty := by
    rcases held with isWritten | ⟨phi, member, rfl⟩
    · obtain ⟨ty, isTy⟩ := exists_type isWritten
      have member := mem_definingBlocks.2 isWritten
      rw [SortedMap.getD] at member
      cases found : (definingBlocks graph).get? var with
      | none => simp [found] at member
      | some defining => exact ⟨defining, ty, rfl, isTy⟩
    · obtain ⟨var, ty, defining, isDefining, isTy, rfl, _⟩ := mem_placePhis.1 member
      exact ⟨defining, ty, isDefining, isTy⟩
  refine ⟨{ var, ty }, mem_placePhis.2 ⟨var, ty, defining, isDefining, isTy, rfl, ?_⟩, rfl⟩
  rw [phiBlocks]
  refine placeFrom_closed built.nodup_names ?_ ?_ ?_ ?_ block ?_ target ?_
  · exact fun name => getD_frontierTable built name ▸ built.nodup_frontier name
  · intro name other member
    rw [getD_frontierTable built] at member
    exact built.mem_names_of_reaches (built.reaches_of_frontier member)
  · have := List.length_filter_le (fun name => !(SortedSet.empty : SortedSet String).contains name)
      dominance.names
    exact Nat.add_le_add_left this _
  · -- A defining block that is not on the worklist is not reached, and has an empty frontier.
    intro name isOpen
    by_cases reached : dominance.contains name = true
    · left
      refine List.mem_filter.2 ⟨List.mem_reverse.2 ?_, reached⟩
      exact isOpen.resolve_right (by simp)
    · right
      intro other member
      rw [getD_frontierTable built, built.mem_frontier] at member
      obtain ⟨_, dominates, _⟩ := member
      exact absurd (built.contains_iff.2 dominates.reaches_upper) reached
  · rcases held with isWritten | ⟨phi, member, rfl⟩
    · exact .inl ((mem_of_isDefining isDefining).2 isWritten)
    · obtain ⟨var, _, others, areOthers, _, rfl, placed⟩ := mem_placePhis.1 member
      obtain rfl := Option.some.inj (areOthers.symm.trans isDefining)
      exact .inr placed
  · rwa [getD_frontierTable built]

end Placed

end Ssa

end Midend
