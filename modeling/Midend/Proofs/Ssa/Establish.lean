import Midend.Proofs.Ssa.Construct
import Midend.Proofs.Ssa.Form

/-! # The conversion gives single assignment

A converted flow graph is in single assignment (`Ssa.Converted.inSsa`), and the conversion fails only
when keys run out (`Ssa.construct_cases`). -/

namespace Midend

namespace Ssa

section Establish

variable {graph after : FlowGraph} {dominance : Dominance} {records : String → Renamed}

/-- A converted block writes the names given out for it. -/
theorem Recorded.defs_perm (recorded : Recorded graph after dominance records) {block image : Block}
    (member : block ∈ graph.blocks) {phis : List Instr}
    (rekeyed : List.Forall₂ FlowGraph.Rekeyed (mergesOf graph dominance records block.name) phis)
    (instrs_eq : image.instrs = phis ++ ((records block.name).finish block).instrs) :
    image.defs.Perm (records block.name).fresh := by
  have settled := recorded.settled block.name (recorded.reachable block member)
  have merges : phis.filterMap Instr.dest? = (records block.name).dests := by
    rw [FlowGraph.filterMap_dest?_of_rekeyed rekeyed, settled.dests_eq, mergesOf,
      List.filterMap_map, ← List.filterMap_eq_map]
    rfl
  rw [Block.defs, instrs_eq, List.filterMap_append, merges, Renamed.fresh, List.append_assoc,
    ← List.filterMap_append]
  exact (((records block.name).finish_perm block).filterMap _).append_left _

/-- The blocks write the names given out for them. -/
theorem Recorded.forall₂_defs (recorded : Recorded graph after dominance records) :
    List.Forall₂ (fun block image => image.name = block.name ∧
      image.defs.Perm (records block.name).fresh) graph.blocks after.blocks :=
  forall₂_imp_of_mem recorded.blocks fun _ member _ ⟨name_eq, _, rekeyed, instrs_eq⟩ =>
    ⟨name_eq, recorded.defs_perm member rekeyed instrs_eq⟩

/-- The variables written afterwards are the names given out. -/
theorem Recorded.dests_perm (recorded : Recorded graph after dominance records) :
    after.dests.Perm (dominance.tree.preorder.flatMap fun name => (records name).fresh) := by
  have dests_perm : after.dests.Perm (graph.names.flatMap fun name => (records name).fresh) := by
    rw [FlowGraph.dests, FlowGraph.instrs, List.filterMap_flatMap, FlowGraph.names,
      List.flatMap_map]
    have images := recorded.forall₂_defs
    generalize graph.blocks = left at images ⊢
    generalize after.blocks = right at images ⊢
    induction images with
    | nil => exact .refl _
    | cons here _ restIH =>
      rw [List.flatMap_cons, List.flatMap_cons]
      exact here.2.append restIH
  refine dests_perm.trans (List.Perm.flatMap_right _ ?_)
  refine (List.perm_ext_iff_of_nodup recorded.nodup_names recorded.built.tree_spec.2.1).2
    fun name => ?_
  rw [recorded.mem_preorder]
  constructor
  · intro member
    obtain ⟨block, inside, rfl⟩ := List.mem_map.1 member
    exact recorded.reachable block inside
  · intro reached
    obtain ⟨block, found, _⟩ := (recorded.settled name reached).exists_renames
    obtain ⟨inside, rfl⟩ := (FlowGraph.find?_eq_some_iff recorded.nodup_names).1 found
    exact List.mem_map_of_mem inside

/-- The names given out for a block are written by its image. -/
theorem Converted.exists_defs (converted : Converted graph after dominance records) {name var : String}
    (reached : graph.Reachable name) (isFresh : var ∈ (records name).fresh) :
    ∃ image ∈ after.blocks, var ∈ image.defs ∧ image.name = name := by
  have member := converted.wellFormed.mem_names_of_reachable reached
  obtain ⟨block, inside, rfl⟩ := List.mem_map.1 member
  obtain ⟨image, imageMember, name_eq, defs⟩ := exists_of_forall₂_left converted.forall₂_defs inside
  exact ⟨image, imageMember, defs.mem_iff.2 isFresh, name_eq⟩

/-- What was read or written before is written nowhere afterwards, unless it is a name given out. -/
theorem Converted.notMem_dests (converted : Converted graph after dominance records) {var : String}
    (isTaken : var ∈ (NameSupply.ofGraph graph).taken) : var ∉ after.dests := by
  intro isDest
  obtain ⟨names, supplied⟩ := converted.supplied
  exact supplied.notMem var (converted.dests_perm.mem_iff.1 isDest) isTaken

/-- What is in force above a block is a parameter or was written in a block that strictly dominates
it. -/
theorem Converted.inherited_cases (converted : Converted graph after dominance records)
    {name var other : String} (reached : graph.Reachable name)
    (inForce : (records name).inherited.get? var = some other) :
    other ∈ graph.paramNames ∨ ∃ upper, other ∈ (records upper).fresh ∧
      StrictlyDominates graph.Leads graph.entryName upper name := by
  refine Reaches.immediate_induction (fun name => (records name).inherited.get? var = some other →
    other ∈ graph.paramNames ∨ ∃ upper, other ∈ (records upper).fresh ∧
      StrictlyDominates graph.Leads graph.entryName upper name) ?_ ?_ reached inForce
  · intro inForce
    rw [converted.inherited_entry] at inForce
    obtain ⟨isParam, rfl⟩ := get?_startScope.1 inForce
    exact .inl isParam
  · intro parent name isParent parentIH inForce
    rw [converted.inherited_eq _ _ isParent] at inForce
    have settled := converted.settled parent isParent.strict.2.reaches_upper
    rcases settled.out_cases inForce with isDest | isResult | above
    · exact .inr ⟨parent, List.mem_append_left _ (List.mem_append_left _ isDest), isParent.strict⟩
    · exact .inr ⟨parent, List.mem_append_left _ (List.mem_append_right _ isResult),
        isParent.strict⟩
    · rcases parentIH above with isParam | ⟨upper, isFresh, strict⟩
      · exact .inl isParam
      · refine .inr ⟨upper, isFresh, ?_, strict.2.trans isParent.strict.2⟩
        rintro rfl
        exact isParent.strict.1 (isParent.strict.2.antisymm strict.2)

/-- The names that a block has for its merges are written by its image's merges. -/
theorem Converted.mem_dests_phis (converted : Converted graph after dominance records)
    {block image : Block} (member : block ∈ graph.blocks)
    (isImage : Image block image (records block.name)
      (mergesOf graph dominance records block.name)) {dest : String}
    (isDest : dest ∈ (records block.name).dests) : dest ∈ image.phis.filterMap Instr.dest? := by
  obtain ⟨phis, _, _, _, rekeyed, phis_eq, _⟩ := isImage.exists_parts
  rw [phis_eq, FlowGraph.filterMap_dest?_of_rekeyed rekeyed]
  rw [(converted.settled block.name (converted.reachable block member)).dests_eq] at isDest
  obtain ⟨phi, isPlaced, rfl⟩ := List.mem_map.1 isDest
  exact List.mem_filterMap.2 ⟨_, List.mem_map_of_mem isPlaced, rfl⟩

/-- What stands behind the merges of a converted block makes an undefined value or is a renamed
instruction; the renamed ones in front of that stand in front of it in the block, too. -/
theorem Image.place_cases {block image : Block} {record : Renamed} {merges : List Instr}
    (isImage : Image block image record merges) {middle later : List Instr} {instr : Instr}
    (body_eq : image.body = middle ++ instr :: later) :
    instr ∈ record.makers ∨ ∃ early late, record.body = early ++ instr :: late ∧
      early.filterMap Instr.dest? ⊆ middle.filterMap Instr.dest? := by
  obtain ⟨_, _, others, terminator, _, _, _, _, _, _, _, image_eq, record_eq⟩ :=
    isImage.exists_parts
  -- Behind the renamed instructions stand the makers and the instruction that ends the block.
  have atEnd : ∀ rest, record.makers ++ [terminator.mapArgs fun arg => record.out.getD arg arg] =
      rest ++ instr :: later → middle = others ++ rest →
      instr ∈ record.makers ∨ ∃ early late, record.body = early ++ instr :: late ∧
        early.filterMap Instr.dest? ⊆ middle.filterMap Instr.dest? := by
    intro rest atCut middle_eq
    have inside : instr ∈ record.makers ++
        [terminator.mapArgs fun arg => record.out.getD arg arg] := by
      rw [atCut]
      simp
    rcases List.mem_append.1 inside with isMaker | isLast
    · exact .inl isMaker
    · rw [List.mem_singleton.1 isLast]
      refine .inr ⟨others, [], record_eq, ?_⟩
      rw [middle_eq, List.filterMap_append]
      exact List.subset_append_left ..
  rw [body_eq, List.append_assoc, List.append_eq_append_iff] at image_eq
  rcases image_eq with ⟨rest, others_eq, atCut⟩ | ⟨rest, middle_eq, atCut⟩
  · cases rest with
    | nil => exact atEnd [] (by simpa using atCut.symm) (by simpa using others_eq.symm)
    | cons first rest =>
      obtain ⟨rfl, _⟩ := List.cons.inj atCut
      refine .inr ⟨middle, rest ++ [terminator.mapArgs fun arg => record.out.getD arg arg], ?_,
        fun _ => id⟩
      rw [record_eq, others_eq, List.append_assoc, List.cons_append]
  · exact atEnd rest atCut middle_eq

/-- A renamed instruction reads what is available: a parameter, an earlier result, what was written
in a block that strictly dominates this one, or a name that is written nowhere. -/
theorem Converted.available (converted : Converted graph after dominance records)
    {block image : Block} (member : block ∈ graph.blocks)
    (isImage : Image block image (records block.name)
      (mergesOf graph dominance records block.name)) {before later : List Instr} {instr : Instr}
    (split : image.instrs = before ++ instr :: later) (notPhi : instr.isPhi = false) {arg : String}
    (isArg : arg ∈ instr.args) : Available after image.name before arg := by
  have reached := converted.reachable block member
  have settled := converted.settled block.name reached
  have paramNames_eq : after.paramNames = graph.paramNames := by
    rw [FlowGraph.paramNames, converted.params_eq, FlowGraph.paramNames]
  obtain ⟨other, found, renames⟩ := settled.exists_renames
  obtain ⟨otherMember, same⟩ :=
    (FlowGraph.find?_eq_some_iff converted.wellFormed.nodup_names).1 found
  obtain ⟨middle, before_eq, body_eq⟩ := Block.exists_body_split split notPhi
  -- What makes undefined values reads nothing.
  rcases isImage.place_cases body_eq with isMaker | ⟨early, late, record_eq, inMiddle⟩
  · obtain ⟨dest, ty, key, rfl⟩ := settled.isUndef instr isMaker
    cases isArg
  · rcases renames.arg_cases record_eq isArg with ⟨var, inForce⟩ | isEarlier |
      ⟨original, inside, isOriginal⟩
    · -- A name in force at the start of the body is that of a merge, or comes from above.
      rcases settled.opened.mid_cases inForce with isDest | above
      · refine .inr (.inl ?_)
        rw [before_eq, List.filterMap_append]
        exact List.mem_append_left _ (converted.mem_dests_phis member isImage isDest)
      · rcases converted.inherited_cases reached above with isParam | ⟨upper, isFresh, strict⟩
        · exact .inl (paramNames_eq ▸ isParam)
        · obtain ⟨image', imageMember, isDef, rfl⟩ :=
            converted.exists_defs strict.2.reaches_upper isFresh
          refine .inr (.inr (.inl ⟨image', imageMember, isDef, ?_, ?_⟩))
          · rw [isImage.name_eq]
            exact strict.1
          · rw [converted.recoded.dominates_eq, isImage.name_eq]
            exact strict.2
    · refine .inr (.inl ?_)
      rw [before_eq, List.filterMap_append]
      exact List.mem_append_right _ (inMiddle isEarlier)
    · exact .inr (.inr (.inr (converted.notMem_dests
        (NameSupply.taken_of_arg otherMember inside isOriginal))))

/-- What a block has for a variable at its end is available there. -/
theorem Converted.availableAtEnd (converted : Converted graph after dominance records)
    {source target : String} (leads : graph.Leads source target) {phi : PendingPhi}
    (isPlaced : phi ∈ (placePhis graph dominance).getD target []) :
    AvailableAtEnd after source ((records source).value phi.var) := by
  have reached := converted.reachable_of_leads leads
  have settled := converted.settled source reached
  have recoded := converted.recoded
  -- Names given out for a block that dominates the source.
  have above : ∀ {upper name}, name ∈ (records upper).fresh →
      Midend.Dominates graph.Leads graph.entryName upper source →
        AvailableAtEnd after source name := by
    intro upper name isFresh dominates
    obtain ⟨image, member, isDef, rfl⟩ := converted.exists_defs dominates.reaches_upper isFresh
    refine .inr (.inl ⟨image, member, isDef, ?_⟩)
    rw [recoded.dominates_eq]
    exact dominates
  rw [Renamed.value, valueOf]
  cases inForce : (records source).out.get? phi.var with
  | none =>
    obtain ⟨name, isMade⟩ := settled.valued target leads phi isPlaced inForce
    rw [Option.getD_none, SortedMap.getD, isMade]
    exact above (List.mem_append_right _ (settled.made _ _ isMade)) (.refl reached)
  | some name =>
    rw [Option.getD_some]
    rcases settled.out_cases inForce with isDest | isResult | inherited
    · exact above (List.mem_append_left _ (List.mem_append_left _ isDest)) (.refl reached)
    · exact above (List.mem_append_left _ (List.mem_append_right _ isResult)) (.refl reached)
    · rcases converted.inherited_cases reached inherited with isParam | ⟨upper, isFresh, strict⟩
      · refine .inl ?_
        rw [FlowGraph.paramNames, converted.params_eq]
        exact isParam
      · exact above isFresh strict.2

/-- A converted flow graph is in single assignment. -/
theorem Converted.inSsa (converted : Converted graph after dominance records) : InSsa after := by
  obtain ⟨names, supplied⟩ := converted.supplied
  have recoded := converted.recoded
  have isMerge : ∀ image ∈ after.blocks, ∀ instr ∈ image.phis, ∃ block ∈ graph.blocks,
      image.name = block.name ∧ ∃ phi ∈ (placePhis graph dominance).getD block.name [], ∃ key,
        instr = (Instr.phi ((records block.name).mid.getD phi.var "") phi.ty
          ((sourcesOf graph dominance block.name).map fun source => (records source).value phi.var)
          (sourcesOf graph dominance block.name)).withKey key := by
    intro image member instr inside
    obtain ⟨block, blockMember, isImage⟩ := exists_of_forall₂_right converted.images member
    obtain ⟨phis, _, _, _, rekeyed, phis_eq, _⟩ := isImage.exists_parts
    obtain ⟨original, isOriginal, key, rfl⟩ :=
      FlowGraph.exists_of_rekeyed rekeyed (phis_eq ▸ inside)
    obtain ⟨phi, isPlaced, rfl⟩ := List.mem_map.1 isOriginal
    exact ⟨block, blockMember, isImage.name_eq, phi, isPlaced, key, rfl⟩
  -- The merges of the conversion name the reachable blocks that lead to theirs, which are all there
  -- are.
  refine ⟨?_, ?_, ?_, ?_, ?_, ?_, ?_⟩
  · exact converted.dests_perm.nodup_iff.2 supplied.nodup
  · intro dest isDest isParam
    refine converted.notMem_dests (SortedSet.mem_ofList.2 (List.mem_append_left _ ?_)) isDest
    rwa [FlowGraph.paramNames, converted.params_eq] at isParam
  · intro image member
    exact ((recoded.wellFormed converted.wellFormed).blocks image member).phis_first
  · intro image member instr inside
    obtain ⟨block, _, name_eq, phi, _, key, rfl⟩ := isMerge image member instr inside
    rw [recoded.predecessorsOf_eq, name_eq]
    have nodup := converted.wellFormed.nodup_names
    refine (List.perm_ext_iff_of_nodup (converted.built.tree_spec.2.1.filter _)
      (FlowGraph.nodup_predecessorsOf nodup _)).2 fun source => ?_
    rw [FlowGraph.mem_predecessorsOf_iff_leads nodup]
    exact converted.mem_sourcesOf
  · intro image member instr inside
    obtain ⟨block, _, _, phi, _, key, rfl⟩ := isMerge image member instr inside
    exact List.length_map _
  · intro image member before instr later split notPhi arg isArg
    obtain ⟨block, blockMember, isImage⟩ := exists_of_forall₂_right converted.images member
    exact converted.available blockMember isImage split notPhi isArg
  · intro image member instr inside label arg isIncoming
    obtain ⟨block, _, _, phi, isPlaced, key, rfl⟩ := isMerge image member instr inside
    have pairs : (sourcesOf graph dominance block.name).zip ((sourcesOf graph dominance
        block.name).map fun source => (records source).value phi.var) =
          (sourcesOf graph dominance block.name).map fun source =>
            (source, (records source).value phi.var) := by
      simpa using List.zip_map' (f := id) (l := sourcesOf graph dominance block.name)
        (g := fun source => (records source).value phi.var)
    have zipped : (label, arg) ∈ (sourcesOf graph dominance block.name).zip
        ((sourcesOf graph dominance block.name).map fun source => (records source).value phi.var) :=
      isIncoming
    rw [pairs] at zipped
    obtain ⟨source, isSource, same⟩ := List.mem_map.1 zipped
    obtain ⟨rfl, rfl⟩ := Prod.mk.inj same
    exact converted.availableAtEnd (converted.mem_sourcesOf.1 isSource) isPlaced

end Establish

end Ssa

end Midend
