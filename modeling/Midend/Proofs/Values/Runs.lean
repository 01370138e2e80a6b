import Midend.Proofs.Values.Descent

/-! # Runs of numbering

In single assignment a run of local numbering (`LocalNumbering.descendsAll_run`) or of global
numbering (`GlobalNumbering.descendsAll_run`) makes the code of a flow graph lighter or lets it read
variables of lower rank, and reports every change. For global numbering this is followed along the
walk down the dominator tree: a visit changes a block, then the merges of its successors. -/

namespace Midend

/-- Blocks were changed for the better, with all changes reported. -/
structure DescendsAll (rank : String → Nat) (blocks images : List Block) (log : Log) : Prop where
  /-- Blocks keep their names. -/
  names_eq : images.map Block.name = blocks.map Block.name
  /-- What is not reported is not changed. -/
  quiet : log = [] → images = blocks
  /-- Code does not get heavier. -/
  weight_le : weigh (images.flatMap Block.instrs) ≤ weigh (blocks.flatMap Block.instrs)
  /-- If it stays as heavy the same blocks write the same variables. -/
  outline_eq : weigh (images.flatMap Block.instrs) = weigh (blocks.flatMap Block.instrs) →
    images.map (fun block => (block.name, block.defs)) =
      blocks.map fun block => (block.name, block.defs)
  /-- Then it reads no variables of higher rank. -/
  climb_le : weigh (images.flatMap Block.instrs) = weigh (blocks.flatMap Block.instrs) →
    climb rank (images.flatMap Block.instrs) ≤ climb rank (blocks.flatMap Block.instrs)
  /-- If it reads variables of the same rank nothing is reported. -/
  reported : weigh (images.flatMap Block.instrs) = weigh (blocks.flatMap Block.instrs) →
    climb rank (images.flatMap Block.instrs) = climb rank (blocks.flatMap Block.instrs) → log = []

namespace DescendsAll

variable {rank : String → Nat} {blocks middle images : List Block} {log more : Log}

/-- Nothing is changed. -/
theorem refl (rank : String → Nat) (blocks : List Block) : DescendsAll rank blocks blocks [] :=
  ⟨rfl, fun _ => rfl, Nat.le_refl _, fun _ => rfl, fun _ => Nat.le_refl _, fun _ _ => rfl⟩

/-- Names stay distinct. -/
theorem nodup (descends : DescendsAll rank blocks images log)
    (distinct : (blocks.map Block.name).Nodup) : (images.map Block.name).Nodup :=
  descends.names_eq.symm ▸ distinct

/-- Two changes in a row. -/
theorem trans (first : DescendsAll rank blocks middle log)
    (second : DescendsAll rank middle images more) :
    DescendsAll rank blocks images (log ++ more) := by
  have lighter := first.weight_le
  have lighterStill := second.weight_le
  refine ⟨second.names_eq.trans first.names_eq, fun quiet => ?_, by omega, fun same => ?_,
    fun same => ?_, fun same sameClimb => ?_⟩
  · obtain ⟨quietFirst, quietSecond⟩ := List.append_eq_nil_iff.1 quiet
    rw [second.quiet quietSecond, first.quiet quietFirst]
  · rw [second.outline_eq (by omega), first.outline_eq (by omega)]
  · exact (second.climb_le (by omega)).trans (first.climb_le (by omega))
  · have lower := first.climb_le (by omega)
    have lowerStill := second.climb_le (by omega)
    rw [first.reported (by omega) (by omega), second.reported (by omega) (by omega)]
    rfl

/-- One block and those behind it are changed. -/
theorem cons {block image : Block} (name_eq : image.name = block.name)
    (first : Descends rank block.instrs image.instrs log)
    (second : DescendsAll rank blocks images more) :
    DescendsAll rank (block :: blocks) (image :: images) (log ++ more) := by
  have lighter := first.weight_le
  have lighterRest := second.weight_le
  have parts : ∀ (head : Block) (tail : List Block),
      weigh ((head :: tail).flatMap Block.instrs) =
        weigh head.instrs + weigh (tail.flatMap Block.instrs) := fun head tail => by
    rw [List.flatMap_cons, weigh_append]
  -- Weights and ranks of both parts add up.
  have climbs : ∀ (head : Block) (tail : List Block),
      climb rank ((head :: tail).flatMap Block.instrs) =
        climb rank head.instrs + climb rank (tail.flatMap Block.instrs) := fun head tail => by
    rw [List.flatMap_cons, climb_append]
  refine ⟨by rw [List.map_cons, List.map_cons, name_eq, second.names_eq], fun quiet => ?_, ?_,
    fun same => ?_, fun same => ?_, fun same sameClimb => ?_⟩
  · obtain ⟨quietFirst, quietSecond⟩ := List.append_eq_nil_iff.1 quiet
    have instrs_eq := first.quiet quietFirst
    rw [second.quiet quietSecond]
    obtain ⟨name, instrs⟩ := image
    obtain ⟨other, others⟩ := block
    dsimp only at name_eq instrs_eq
    rw [name_eq, instrs_eq]
  · rw [parts, parts]
    omega
  · rw [parts, parts] at same
    rw [List.map_cons, List.map_cons, second.outline_eq (by omega), name_eq, Block.defs, Block.defs,
      first.dests_eq (by omega)]
  · rw [parts, parts] at same
    rw [climbs, climbs]
    exact Nat.add_le_add (first.climb_le (by omega)) (second.climb_le (by omega))
  · rw [parts, parts] at same
    rw [climbs, climbs] at sameClimb
    have lower := first.climb_le (by omega)
    have lowerRest := second.climb_le (by omega)
    rw [first.reported (by omega) (by omega), second.reported (by omega) (by omega)]
    rfl

/-- One of several blocks with names of their own is changed. -/
theorem modify {name : String} {change : Block → Block} (nodup : (blocks.map Block.name).Nodup)
    (changed : ∀ block ∈ blocks, block.name = name → (change block).name = name ∧
      Descends rank block.instrs (change block).instrs log)
    (isThere : name ∈ blocks.map Block.name) :
    DescendsAll rank blocks
      (blocks.map fun block => if block.name = name then change block else block) log := by
  induction blocks with
  | nil => cases isThere
  | cons block rest restIH =>
    rw [List.map_cons, List.nodup_cons] at nodup
    rw [List.map_cons]
    by_cases isHere : block.name = name
    · obtain ⟨name_eq, descends⟩ := changed block (List.mem_cons_self ..) isHere
      -- No other block has that name.
      have others : rest.map (fun block => if block.name = name then change block else block) =
          rest := by
        refine (List.map_congr_left fun other member => if_neg fun same => ?_).trans (List.map_id _)
        exact nodup.1 (isHere ▸ same ▸ List.mem_map_of_mem member)
      rw [if_pos isHere, others, ← List.append_nil log]
      exact .cons (name_eq.trans isHere.symm) descends (.refl rank rest)
    · rw [if_neg isHere]
      have inRest : name ∈ rest.map Block.name :=
        (List.mem_cons.1 isThere).resolve_left fun same => isHere same.symm
      exact .cons rfl (.refl rank block.instrs) (restIH nodup.2
        (fun other member => changed other (List.mem_cons_of_mem _ member)) inRest)

end DescendsAll

namespace LocalNumbering

/-- In single assignment local numbering makes code lighter, or lets it read variables of lower
rank. -/
theorem descendsAll_run {graph : FlowGraph} (wellFormed : graph.WellFormed)
    (inSsa : Ssa.InSsa graph) :
    DescendsAll graph.rank graph.blocks (run graph).1.blocks (run graph).2 := by
  suffices numbered : ∀ (blocks : List Block) (names : NameSupply),
      (∀ block ∈ blocks, block ∈ graph.blocks) → DescendsAll graph.rank blocks
        (numberBlocks graph.name blocks names).1 (numberBlocks graph.name blocks names).2.2 from
    numbered graph.blocks _ fun _ => id
  intro blocks
  induction blocks with
  | nil => exact fun _ _ => .refl _ _
  | cons block rest restIH =>
    intro names members
    have member := members block (List.mem_cons_self ..)
    have isWellFormed := wellFormed.blocks block member
    have split : block.instrs = block.phis ++ block.body := block.phis_append_body.symm
    have nodup := inSsa.nodup_body member
    rw [numberBlocks_cons]
    refine .cons rfl ?_ (restIH _ fun other inside => members other (List.mem_cons_of_mem _ inside))
    obtain ⟨parts, logs⟩ := numberInstrs_block ⟨graph.name, block.name, passName⟩ block names
    -- What is written once keeps its name, so the body is numbered as in global numbering.
    rw [parts, logs, numberInstrs_of_once _ isWellFormed.phis_first nodup _ (fun var => by simp),
      log_numberInstrs_of_once _ isWellFormed.phis_first nodup _ (fun var => by simp)]
    have bound : ∀ var, (definePhis block.phis {}).Bound var →
        Ssa.Available graph block.name block.phis var :=
      fun var isBound => .inr (.inl (mem_of_bound_definePhis isBound))
    have descends := (GlobalNumbering.descends_body ⟨graph.name, block.name, passName⟩ inSsa member
      split (fun instr inside => (isWellFormed.plain_body instr inside).2) bound
      (ValueTable.Orderly.empty.foldl_define _)).2
    have whole := (Descends.refl graph.rank block.phis).append descends
    rwa [← split] at whole

end LocalNumbering

namespace GlobalNumbering

open ValueTable (Orderly Bound)

variable {rank : String → Nat} {table : ValueTable}

/-! ## Passing values on -/

/-- The variable that stands for the value of another one is that one or ranks lower. -/
theorem rank_canonical (orderly : Orderly rank table) (arg : String) :
    canonical table arg = arg ∨ rank (canonical table arg) < rank arg := by
  unfold canonical
  cases found : table.numberOf? arg with
  | none => exact .inl rfl
  | some number => exact orderly.rank_canonical found

/-- What a merge takes from a block ranks no higher once it is canonical, and lower if it is
replaced. -/
theorem rank_propagateInto (place : Place) (target : String) (orderly : Orderly rank table)
    (incoming : List (String × String)) :
    (propagateInto place table target incoming).1.length = incoming.length ∧
      ((propagateInto place table target incoming).2 = [] →
        (propagateInto place table target incoming).1 = incoming) ∧
      (((propagateInto place table target incoming).1.map Prod.snd).map rank).sum ≤
        ((incoming.map Prod.snd).map rank).sum ∧
      ((((propagateInto place table target incoming).1.map Prod.snd).map rank).sum =
          ((incoming.map Prod.snd).map rank).sum →
        (propagateInto place table target incoming).2 = []) := by
  induction incoming with
  | nil => exact ⟨rfl, fun _ => rfl, Nat.le_refl _, fun _ => rfl⟩
  | cons pair rest restIH =>
    obtain ⟨label, arg⟩ := pair
    obtain ⟨length_eq, same, lower, reported⟩ := restIH
    have lowest : (if label = place.block then canonical table arg else arg) = arg ∨
        rank (if label = place.block then canonical table arg else arg) < rank arg := by
      split
      · exact rank_canonical orderly arg
      · exact .inl rfl
    unfold canonical at lowest
    simp only [propagateInto, List.length_cons, List.map_cons, List.sum_cons, length_eq, true_and]
    generalize (if label = place.block then ((table.numberOf? arg).bind table.canonical?).getD arg
      else arg) = taken at lowest ⊢
    refine ⟨fun quiet => ?_, ?_, fun sameRank => ?_⟩
    · obtain ⟨quietHere, quietRest⟩ := List.append_eq_nil_iff.1 quiet
      have isSame : taken = arg := by
        by_contra apart
        rw [if_neg apart] at quietHere
        cases quietHere
      rw [isSame, same quietRest]
    · rcases lowest with rfl | isLower <;> omega
    · rcases lowest with rfl | isLower
      · rw [if_pos rfl, reported (by omega)]
        rfl
      · omega

/-- The values that have labels, and then the others. -/
theorem map_snd_zip_append (labels args : List String) :
    (labels.zip args).map Prod.snd ++ args.drop (labels.zip args).length = args := by
  induction labels generalizing args with
  | nil => rfl
  | cons label rest restIH =>
    cases args with
    | nil => rfl
    | cons arg args => simpa using restIH args

/-- Merges that get canonical values from a block read variables of lower rank. -/
theorem descends_propagateToPhis (place : Place) (target : String) (orderly : Orderly rank table)
    {phis : List Instr} (merges : ∀ phi ∈ phis, phi.isPhi = true) :
    Descends rank phis (propagateToPhis place table target phis).1
      (propagateToPhis place table target phis).2 := by
  induction phis with
  | nil => exact .refl _ _
  | cons phi rest restIH =>
    obtain ⟨dest, ty, operands, isAction⟩ := Instr.exists_of_isPhi (merges phi (List.mem_cons_self ..))
    obtain ⟨length_eq, same, lower, reported⟩ :=
      rank_propagateInto place target orderly phi.incoming
    have args_eq : phi.args = operands.args := by rw [Instr.args, isAction]; rfl
    have parts := map_snd_zip_append phi.labels phi.args
    -- Arguments without a label are left alone, and so is what they add to the rank.
    have ranks : (phi.args.map rank).sum = ((phi.incoming.map Prod.snd).map rank).sum +
        ((phi.args.drop phi.incoming.length).map rank).sum := by
      conv_lhs => rw [← parts]
      rw [List.map_append, List.sum_append]
      rfl
    have args_of : ∀ args, ({ phi with action := phi.action.mapOperands fun operands =>
        { operands with args } } : Instr).args = args := fun args => by
      simp [Instr.args, isAction, Action.mapOperands, Action.operands]
    unfold propagateToPhis
    dsimp only
    refine Descends.cons ⟨fun quiet => ?_, ?_, fun _ => ?_, fun _ => ?_, fun _ sameRank => ?_⟩
      (restIH fun other member => merges other (List.mem_cons_of_mem _ member))
    · rw [same quiet]
      obtain ⟨action, pos, key⟩ := phi
      dsimp only at isAction
      subst isAction
      simp only [Action.mapOperands, List.cons.injEq, Instr.mk.injEq, Action.compute.injEq, and_true,
        true_and]
      rw [Instr.incoming, parts, args_eq]
    · simp [Instr.weight, isAction, Action.mapOperands, Action.weight]
    · simp [Instr.dest?, isAction, Action.mapOperands, Action.dest?]
    · simp only [climb_cons, climb_nil, Instr.climb, args_of, length_eq, List.map_append,
        List.sum_append, ranks]
      omega
    · simp only [climb_cons, climb_nil, Instr.climb, args_of, length_eq, List.map_append,
        List.sum_append, ranks] at sameRank
      exact reported (by omega)

/-- A block that passes its values on lets the merges of other blocks read variables of lower
rank. -/
theorem descendsAll_propagate (place : Place) (orderly : Orderly rank table) (targets : List String)
    {graph : FlowGraph} (nodup : graph.names.Nodup) :
    DescendsAll rank graph.blocks (propagate place table targets graph).1.blocks
        (propagate place table targets graph).2 ∧
      (propagate place table targets graph).1 =
        { graph with blocks := (propagate place table targets graph).1.blocks } := by
  induction targets generalizing graph with
  | nil => exact ⟨.refl _ _, rfl⟩
  | cons target rest restIH =>
    unfold propagate
    split
    · rename_i block found
      obtain ⟨member, isName⟩ := (FlowGraph.find?_eq_some_iff nodup).1 found
      have descends := descends_propagateToPhis place target orderly
        fun phi (isPhi : phi ∈ block.phis) => Block.isPhi_of_mem_phis isPhi
      have first : DescendsAll rank graph.blocks
          (graph.modifyBlock target fun other => { other with
            instrs := (propagateToPhis place table target block.phis).1 ++ other.body }).blocks
          (propagateToPhis place table target block.phis).2 := by
        refine .modify nodup (fun other inside same => ⟨same, ?_⟩) (isName ▸ List.mem_map_of_mem member)
        obtain rfl := List.inj_on_of_nodup_map nodup inside member (same.trans isName.symm)
        have whole := descends.append (.refl rank other.body)
        rwa [other.phis_append_body, List.append_nil] at whole
      obtain ⟨later, same⟩ := restIH (first.nodup nodup)
      refine ⟨first.trans later, ?_⟩
      rw [same]
      rfl
    · exact restIH nodup

/-! ## Visits -/

/-- In single assignment a visit makes code lighter, or lets it read variables of lower rank; and the
values at the end of the block are in order. -/
theorem descendsAll_visit {graph : FlowGraph} (wellFormed : graph.WellFormed)
    (inSsa : Ssa.InSsa graph) {records : String → Record} {done : List String}
    {state next : FlowGraph × Log} {block : Block} {table : ValueTable}
    (visiting : Visiting graph records done state.1 block table)
    (visited : Visited block.name table state (records block.name) next)
    (orderly : Orderly graph.rank table) :
    Orderly graph.rank (records block.name).out ∧
      next.1 = { state.1 with blocks := next.1.blocks } ∧
      ∃ log, next.2 = state.2 ++ log ∧
        DescendsAll graph.rank state.1.blocks next.1.blocks log := by
  have names_eq := visiting.progress.names_eq
  have nodup : state.1.names.Nodup := names_eq ▸ wellFormed.nodup_names
  obtain ⟨current, found, fronted⟩ :=
    visiting.progress.exists_current wellFormed visiting.member visiting.isNew
  obtain ⟨phis_eq, body_eq⟩ := fronted.parts
  obtain ⟨inside, isName⟩ := (FlowGraph.find?_eq_some_iff nodup).1 found
  have merges : ∀ phi ∈ block.phis, (resolve (outs records) done phi).isPhi = true :=
    fun phi isPhi => isPhi_mapIncoming.trans (Block.isPhi_of_mem_phis isPhi)
  obtain ⟨ordered, descends⟩ := descends_numberBlock ⟨state.1.name, block.name, passName⟩ inSsa
    wellFormed visiting.member merges (fun phi => dest?_mapIncoming) phis_eq body_eq
    visiting.available orderly
  have numberedName : (numberBlock ⟨state.1.name, block.name, passName⟩ table current).1.name =
      block.name := by
    rw [numberBlock_eq]
    exact isName
  obtain ⟨_, out_eq, next_eq, log_eq⟩ := visited
  unfold visitBlock at out_eq next_eq log_eq
  rw [found] at out_eq next_eq log_eq
  dsimp only at out_eq next_eq log_eq
  -- The block is numbered in its place, and then passes its values on.
  generalize numberBlock ⟨state.1.name, block.name, passName⟩ table current = numbered
    at ordered descends numberedName out_eq next_eq log_eq
  have first : DescendsAll graph.rank state.1.blocks
      (state.1.modifyBlock block.name fun _ => numbered.1).blocks numbered.2.2 := by
    refine .modify nodup (fun other isOther same => ⟨numberedName, ?_⟩)
      (isName ▸ List.mem_map_of_mem inside)
    rwa [List.inj_on_of_nodup_map nodup isOther inside (same.trans isName.symm)]
  obtain ⟨second, same⟩ := descendsAll_propagate ⟨state.1.name, block.name, passName⟩ ordered
    numbered.1.successors (first.nodup nodup)
  rw [← out_eq, ← next_eq]
  refine ⟨ordered, ?_, _, log_eq, first.trans second⟩
  rw [same]
  rfl

/-- In single assignment global numbering makes code lighter, or lets it read variables of lower
rank. -/
theorem descendsAll_run {graph : FlowGraph} (wellFormed : graph.WellFormed)
    (inSsa : Ssa.InSsa graph) : ∃ after log, run graph = .ok (after, log) ∧
      after = { graph with blocks := after.blocks } ∧
      DescendsAll graph.rank graph.blocks after.blocks log := by
  obtain ⟨dominance, records, isDominance, _, _, visits⟩ := exists_walk wellFormed inSsa
  have ran : run graph = .ok (visitTree dominance.tree (startTable graph) graph) := by
    rw [run, isDominance]
    rfl
  refine ⟨_, _, ran, (visits (fun done state =>
    (∀ name ∈ done, Orderly graph.rank (records name).out) ∧
      state.1 = { graph with blocks := state.1.blocks } ∧
      DescendsAll graph.rank graph.blocks state.1.blocks state.2)
    ⟨by simp, rfl, .refl _ _⟩ ?_).2.2⟩
  intro done state next block table visiting visited held
  obtain ⟨orderly, isState, descends⟩ := held
  have ordered : Orderly graph.rank table := by
    rcases visiting.origin with rfl | ⟨upper, isDone, rfl⟩
    · exact Orderly.empty.foldl_define _
    · exact orderly upper isDone
  obtain ⟨out, isNext, log, log_eq, step⟩ :=
    descendsAll_visit wellFormed inSsa visiting visited ordered
  refine ⟨fun name isDone => ?_, ?_, log_eq ▸ descends.trans step⟩
  · rcases List.mem_append.1 isDone with early | isLast
    · exact orderly name early
    · rwa [List.mem_singleton.1 isLast]
  · rw [isNext, isState]

end GlobalNumbering

end Midend
