import Midend.Proofs.FlowGraph.Recoded
import Midend.Proofs.Semantics.Simulation
import Midend.Proofs.Ssa.Conversion

/-! # Correctness of the conversion into single assignment

The converted flow graph is well-formed (`Ssa.Converted.wellFormed`) and yields what the original one
yields (`Ssa.refines_construct`). A run of the one is followed by a run of the other in which the
name in force for a variable holds its value. -/

namespace Midend

namespace Ssa

/-! ## Parts of a converted block -/

/-- A converted block: its merges, its renamed instructions, the makers of undefined values, and the
instruction that ends it. -/
structure Image (block image : Block) (record : Renamed) (merges : List Instr) : Prop where
  /-- It has the name of the block. -/
  name_eq : image.name = block.name
  /-- Its parts. -/
  exists_parts : ∃ phis front others terminator,
    List.Forall₂ FlowGraph.Rekeyed merges phis ∧ image.phis = phis ∧
    block.instrs = front ++ [terminator] ∧ (∀ instr ∈ front, instr.isTerminator = false) ∧
    terminator.isTerminator = true ∧ terminator.Checked ∧
    Renames front record.mid others record.out ∧
    image.body = others ++ record.makers ++ [terminator.mapArgs fun arg => record.out.getD arg arg] ∧
    record.body = others ++ [terminator.mapArgs fun arg => record.out.getD arg arg]

/-- An instruction in the middle of a block without merges. -/
structure Inner (instr : Instr) : Prop where
  /-- It does not end the block. -/
  isTerminator : instr.isTerminator = false
  /-- It passes its checks. -/
  checked : instr.Checked
  /-- It is no label. -/
  isLabel : instr.isLabel = false
  /-- It is no merge. -/
  isPhi : instr.isPhi = false

/-- What stands in front of the end of a block without merges. -/
theorem inner_of_split {block : Block} (wellFormed : block.WellFormed)
    (unmerged : ∀ instr ∈ block.instrs, instr.isPhi = false) {front : List Instr}
    {terminator : Instr} (split : block.instrs = front ++ [terminator])
    (plain : ∀ instr ∈ front, instr.isTerminator = false) : ∀ instr ∈ front, Inner instr := by
  intro instr inFront
  have member : instr ∈ block.instrs := by
    rw [split]
    exact List.mem_append_left _ inFront
  exact ⟨plain instr inFront, wellFormed.checked instr member, wellFormed.unlabelled instr member,
    unmerged instr member⟩

/-- Renamed instructions and those that make undefined values may stand where the original ones
do. -/
theorem Renames.inner {front others makers : List Instr} {mid out : Scope}
    (renames : Renames front mid others out) (areInner : ∀ instr ∈ front, Inner instr)
    (isUndef : ∀ instr ∈ makers, ∃ dest ty key, instr = (Instr.undef dest ty).withKey key) :
    ∀ instr ∈ others ++ makers, Inner instr := by
  intro instr member
  rcases List.mem_append.1 member with inOthers | isMaker
  · obtain ⟨original, inside, isChecked, isOp, _, isPhi, isLabel⟩ :=
      renames.exists_original inOthers
    have inner := areInner original inside
    refine ⟨?_, isChecked inner.checked, isLabel.trans inner.isLabel, isPhi.trans inner.isPhi⟩
    rw [Instr.isTerminator, isOp]
    exact inner.isTerminator
  · obtain ⟨dest, ty, key, rfl⟩ := isUndef instr isMaker
    exact ⟨rfl, Instr.checked_undef dest ty, rfl, rfl⟩

/-- Instructions with other keys are merges like the original ones. -/
theorem isPhi_of_rekeyed {instrs keyed : List Instr}
    (rekeyed : List.Forall₂ FlowGraph.Rekeyed instrs keyed)
    (merges : ∀ instr ∈ instrs, instr.isPhi = true) : ∀ instr ∈ keyed, instr.isPhi = true := by
  intro instr member
  obtain ⟨original, inside, key, rfl⟩ := FlowGraph.exists_of_rekeyed rekeyed member
  exact merges original inside

section Parts

variable {graph after : FlowGraph} {dominance : Dominance} {records : String → Renamed}

/-- The merges of a block are merges. -/
theorem isPhi_of_mem_mergesOf {name : String} :
    ∀ instr ∈ mergesOf graph dominance records name, instr.isPhi = true := by
  intro instr member
  obtain ⟨phi, _, rfl⟩ := List.mem_map.1 member
  rfl

/-- A converted block has the parts it should have. -/
theorem image_of_finish {block image : Block} {record : Renamed} {merges phis : List Instr}
    (wellFormed : block.WellFormed) (unmerged : ∀ instr ∈ block.instrs, instr.isPhi = false)
    (areMerges : ∀ instr ∈ merges, instr.isPhi = true)
    (renames : Renames block.instrs record.mid record.body record.out)
    (isUndef : ∀ instr ∈ record.makers, ∃ dest ty key, instr = (Instr.undef dest ty).withKey key)
    (name_eq : image.name = block.name) (rekeyed : List.Forall₂ FlowGraph.Rekeyed merges phis)
    (instrs_eq : image.instrs = phis ++ (record.finish block).instrs) :
    Image block image record merges := by
  obtain ⟨front, terminator, split, plain, ends⟩ := wellFormed.exists_end
  have checked := wellFormed.checked terminator (by rw [split]; simp)
  obtain ⟨others, body_eq, renamesFront⟩ :=
    renames.exists_concat split (Instr.dest?_of_terminator checked ends)
  -- The makers stand right before the instruction that ends the block.
  have finished : (record.finish block).instrs = others ++ record.makers ++
      [terminator.mapArgs fun arg => record.out.getD arg arg] := by
    have isLast : ({ block with instrs := record.body } : Block).terminator? =
        some (terminator.mapArgs fun arg => record.out.getD arg arg) :=
      Block.terminator?_of_split body_eq (by simpa using ends)
    simp only [Renamed.finish, Block.insertAt, Block.insertionPoint, isLast, Option.isSome_some,
      if_true]
    rw [body_eq]
    simp
  rw [finished] at instrs_eq
  have plainOthers : ∀ instr ∈ others ++ record.makers ++
      [terminator.mapArgs fun arg => record.out.getD arg arg], instr.isPhi = false := by
    intro instr member
    rcases List.mem_append.1 member with inFront | isLast
    · exact (renamesFront.inner (inner_of_split wellFormed unmerged split plain) isUndef instr
        inFront).isPhi
    · rw [List.mem_singleton.1 isLast, Instr.isPhi_mapArgs]
      exact unmerged terminator (by rw [split]; simp)
  obtain ⟨phis_eq, image_eq⟩ :=
    Block.phis_of_split instrs_eq (isPhi_of_rekeyed rekeyed areMerges) plainOthers
  exact ⟨name_eq, phis, front, others, terminator, rekeyed, phis_eq, split, plain, ends, checked,
    renamesFront, image_eq, body_eq⟩

/-- A converted block is well-formed and leads where the original one leads. -/
theorem Image.recoded {block image : Block} {record : Renamed} {merges : List Instr}
    (isImage : Image block image record merges) (wellFormed : block.WellFormed)
    (unmerged : ∀ instr ∈ block.instrs, instr.isPhi = false)
    (areMerges : ∀ instr ∈ merges, ∀ key, (instr.withKey key).isPhi = true ∧
      (instr.withKey key).Checked)
    (isUndef : ∀ instr ∈ record.makers, ∃ dest ty key, instr = (Instr.undef dest ty).withKey key) :
    image.successors = block.successors ∧ image.WellFormed := by
  obtain ⟨_, phis, front, others, terminator, rekeyed, phis_eq, split, plain, ends, checked, renames,
    body_eq, _⟩ := isImage
  -- The image ends with the renamed end of the block; nothing in front of it ends anything.
  have image_eq : image.instrs = (phis ++ (others ++ record.makers)) ++
      [terminator.mapArgs fun arg => record.out.getD arg arg] := by
    rw [← image.phis_append_body, phis_eq, body_eq, List.append_assoc phis]
  have endsImage : (terminator.mapArgs fun arg => record.out.getD arg arg).isTerminator = true := by
    simpa using ends
  have areInner := renames.inner (inner_of_split wellFormed unmerged split plain) isUndef
  have phis_spec : ∀ instr ∈ phis, instr.isPhi = true ∧ instr.Checked := by
    intro instr member
    obtain ⟨original, inside, key, rfl⟩ := FlowGraph.exists_of_rekeyed rekeyed member
    exact areMerges original inside key
  have lastMember : terminator ∈ block.instrs := by rw [split]; simp
  constructor
  · rw [Block.successors_of_terminator (Block.terminator?_of_split image_eq endsImage)
      (checked.mapArgs _) endsImage, Instr.labels_mapArgs,
      Block.successors_of_terminator (Block.terminator?_of_split split ends) checked ends]
  · refine ⟨⟨_, _, image_eq, fun instr member => ?_, endsImage⟩, ?_, ?_, ?_⟩
    · rcases List.mem_append.1 member with inPhis | inBody
      · exact Block.isTerminator_of_isPhi (phis_spec instr inPhis).1
      · exact (areInner instr inBody).isTerminator
    · intro instr member
      rw [image_eq] at member
      rcases List.mem_append.1 member with member | isLast
      · rcases List.mem_append.1 member with inPhis | inBody
        · exact (phis_spec instr inPhis).2
        · exact (areInner instr inBody).checked
      · rw [List.mem_singleton.1 isLast]
        exact checked.mapArgs _
    · intro instr member
      rw [image_eq] at member
      rcases List.mem_append.1 member with member | isLast
      · rcases List.mem_append.1 member with inPhis | inBody
        · exact Instr.isLabel_of_isPhi (phis_spec instr inPhis).1
        · exact (areInner instr inBody).isLabel
      · rw [List.mem_singleton.1 isLast, Instr.isLabel_mapArgs]
        exact wellFormed.unlabelled _ lastMember
    · intro instr member
      rw [body_eq] at member
      rcases List.mem_append.1 member with inBody | isLast
      · exact (areInner instr inBody).isPhi
      · rw [List.mem_singleton.1 isLast, Instr.isPhi_mapArgs]
        exact unmerged _ lastMember

/-- The walk visits the reachable blocks. -/
theorem Recorded.mem_preorder (recorded : Recorded graph after dominance records) {name : String} :
    name ∈ dominance.tree.preorder ↔ graph.Reachable name := by
  obtain ⟨members, _⟩ := recorded.built.tree_spec
  rw [FlowGraph.succeeds_successorMap recorded.nodup_names] at members
  exact members name

namespace Converted

/-- Every block has its image. -/
theorem images (converted : Converted graph after dominance records) :
    List.Forall₂ (fun block image => Image block image (records block.name)
      (mergesOf graph dominance records block.name)) graph.blocks after.blocks := by
  refine forall₂_imp_of_mem converted.blocks fun block member image facts => ?_
  obtain ⟨name_eq, phis, rekeyed, instrs_eq⟩ := facts
  have settled := converted.settled block.name (converted.reachable block member)
  obtain ⟨other, found, renames⟩ := settled.exists_renames
  obtain rfl : other = block := by
    have isBlock := (FlowGraph.find?_eq_some_iff converted.wellFormed.nodup_names).2 ⟨member, rfl⟩
    exact Option.some.inj (found.symm.trans isBlock)
  exact image_of_finish (converted.wellFormed.blocks _ member) (converted.unmerged _ member)
    isPhi_of_mem_mergesOf renames settled.isUndef name_eq rekeyed instrs_eq

/-- A block that leads to another one is reachable. -/
theorem reachable_of_leads (converted : Converted graph after dominance records)
    {source target : String} (leads : graph.Leads source target) : graph.Reachable source := by
  obtain ⟨block, found, _⟩ := FlowGraph.leads_iff.1 leads
  obtain ⟨member, rfl⟩ := (FlowGraph.find?_eq_some_iff converted.wellFormed.nodup_names).1 found
  exact converted.reachable block member

/-- The blocks that a merge takes values from are those that lead to it. -/
theorem mem_sourcesOf (converted : Converted graph after dominance records)
    {source target : String} :
    source ∈ sourcesOf graph dominance target ↔ graph.Leads source target := by
  rw [sourcesOf, List.mem_filter, converted.mem_preorder, decide_eq_true_eq]
  exact ⟨fun facts => facts.2, fun leads => ⟨converted.reachable_of_leads leads, leads⟩⟩

/-- Some block leads to a block that merges. -/
theorem exists_leads_of_placed (converted : Converted graph after dominance records)
    {name : String} {phi : PendingPhi} (isPlaced : phi ∈ (placePhis graph dominance).getD name []) :
    ∃ source, graph.Leads source name := by
  obtain ⟨_, other, onFrontier⟩ := fresh_of_placed converted.built isPlaced
  obtain ⟨source, _, succeeds, _⟩ := converted.built.mem_frontier.1 onFrontier
  rw [FlowGraph.succeeds_successorMap converted.wellFormed.nodup_names] at succeeds
  exact ⟨source, succeeds⟩

/-- The conversion keeps the edges. -/
theorem recoded (converted : Converted graph after dominance records) : graph.Recoded after := by
  refine ⟨converted.name_eq, converted.params_eq, ?_⟩
  refine forall₂_imp_of_mem converted.images fun block member image isImage =>
    ⟨isImage.name_eq, ?_⟩
  have settled := converted.settled block.name (converted.reachable block member)
  refine isImage.recoded (converted.wellFormed.blocks block member)
    (converted.unmerged block member) (fun instr isMerge key => ?_) settled.isUndef
  obtain ⟨phi, isPlaced, rfl⟩ := List.mem_map.1 isMerge
  obtain ⟨source, leads⟩ := converted.exists_leads_of_placed isPlaced
  have nonempty := List.ne_nil_of_mem (converted.mem_sourcesOf.2 leads)
  have checked : (Instr.phi ((records block.name).mid.getD phi.var "") phi.ty
      ((sourcesOf graph dominance block.name).map fun source => (records source).value phi.var)
      (sourcesOf graph dominance block.name)).Checked :=
    Instr.checked_phi (List.length_map _).symm fun empty => nonempty (List.map_eq_nil_iff.1 empty)
  exact ⟨rfl, checked⟩

end Converted

end Parts

/-! ## Runs of renamed instructions -/

/-- The names in force hold the values of their variables. -/
def Agree (scope : Scope) (env mirror : Env) : Prop :=
  ∀ var value, env var = some value → ∃ name, scope.get? var = some name ∧
    mirror name = some value

/-- The names in force have values. -/
def Backed (scope : Scope) (mirror : Env) : Prop :=
  ∀ var name, scope.get? var = some name → (mirror name).isSome

/-- What has a value in one environment has one in another. -/
def Keeps (mirror later : Env) : Prop := ∀ name, (mirror name).isSome → (later name).isSome

/-- Names in force keep their values when others are written. -/
theorem Agree.of_eq {scope : Scope} {env mirror later : Env} (agree : Agree scope env mirror)
    (same : ∀ var name, scope.get? var = some name → later name = mirror name) :
    Agree scope env later := by
  intro var value held
  obtain ⟨name, inForce, atName⟩ := agree var value held
  exact ⟨name, inForce, (same var name inForce).trans atName⟩

/-- Writing a variable under a new name keeps the names in force right. -/
theorem Agree.set {scope : Scope} {env mirror : Env} {name : String}
    (agree : Agree scope env mirror) (isNew : ∀ var, scope.get? var ≠ some name) (dest : String)
    (value : Value) :
    Agree (scope.insert dest name) (env.set dest value) (mirror.set name value) := by
  intro var other held
  rw [SortedMap.get?_insert_eq]
  by_cases same : var = dest
  · subst same
    rw [Env.set_self] at held
    obtain rfl := Option.some.inj held
    exact ⟨name, if_pos rfl, Env.set_self ..⟩
  · rw [Env.set_of_ne _ _ same] at held
    obtain ⟨older, inForce, atOlder⟩ := agree var other held
    have apart : older ≠ name := by
      rintro rfl
      exact isNew var inForce
    exact ⟨older, by rw [if_neg same, inForce], by rw [Env.set_of_ne _ _ apart, atOlder]⟩

/-- Writing a variable under a new name gives all names in force values. -/
theorem Backed.set {scope : Scope} {mirror : Env} {name : String} (backed : Backed scope mirror)
    (dest : String) (value : Value) : Backed (scope.insert dest name) (mirror.set name value) := by
  intro var older inForce
  rw [SortedMap.get?_insert_eq] at inForce
  split at inForce
  · obtain rfl := Option.some.inj inForce
    rw [Env.set_self]
    rfl
  · exact Env.set_isSome _ _ (backed var older inForce)

/-- Reading the names in force finds the values of the variables. -/
theorem Agree.read {scope : Scope} {env mirror : Env} (agree : Agree scope env mirror)
    {vars : List String} {values : List Value} (found : env.read vars = some values) :
    mirror.read (vars.map fun var => scope.getD var var) = some values := by
  refine Env.read_map (fun var _ value held => ?_) found
  obtain ⟨name, inForce, atName⟩ := agree var value held
  rw [SortedMap.getD, inForce]
  exact atName

/-- An instruction with other arguments that hold the same values does the same. -/
theorem Agree.exec {machine : Machine} {calls : Calls} {scope : Scope} {env mirror : Env}
    {instr : Instr} {lines : List String} {next : State} {control : Control}
    (agree : Agree scope env mirror)
    (ran : instr.exec machine calls ⟨env, lines⟩ = some (next, control))
    (change : String → String) :
    ∃ effect : Effect, next = (⟨env, lines⟩ : State).after instr.dest? effect ∧
      effect.control = control ∧ effect.value.isSome = instr.dest?.isSome ∧
      ((instr.mapArgs fun arg => scope.getD arg arg).mapDest change).exec machine calls
        ⟨mirror, lines⟩ = some ((⟨mirror, lines⟩ : State).after (instr.dest?.map change) effect,
          control) := by
  obtain ⟨effect, isNext, goes, hasValue, mirrored⟩ := Instr.exec_of_perform_eq
    ((instr.mapArgs fun arg => scope.getD arg arg).mapDest change) mirror ran
    (fun values => by
      rw [Instr.mapDest, Action.perform_mapDest]
      exact Instr.perform_mapArgs _ _ machine calls values)
    (fun values found => by
      rw [Instr.reads_mapDest, Instr.reads_mapArgs]
      exact agree.read found)
  refine ⟨effect, isNext, goes, hasValue, ?_⟩
  rw [mirrored, Instr.dest?_mapDest, Instr.dest?_mapArgs]

/-- Renamed instructions that run to their end do what the original ones do, and give the names in
force at their end the values of their variables. -/
theorem Renames.execAll {machine : Machine} {calls : Calls} {instrs renamed : List Instr}
    {scope out : Scope} (renames : Renames instrs scope renamed out) {env mirror : Env}
    {lines : List String} {next : State}
    (agree : Agree scope env mirror) (backed : Backed scope mirror)
    (ran : Instr.execAll machine calls instrs ⟨env, lines⟩ = some (next, .next)) :
    ∃ last, Instr.execAll machine calls renamed ⟨mirror, lines⟩ =
        some (⟨last, next.lines⟩, .next) ∧
      Agree out next.env last ∧ Backed out last ∧ Keeps mirror last := by
  induction renames generalizing env mirror lines with
  | nil scope =>
    obtain ⟨rfl, _⟩ := Prod.mk.inj (Option.some.inj ran)
    exact ⟨mirror, rfl, agree, backed, fun _ => id⟩
  | @plain instr rest renamed scope out isDest _ restIH =>
    obtain ⟨middle, first, ran⟩ := Instr.execAll_cons_next_iff.1 ran
    obtain ⟨effect, rfl, isNext, _, mirrored⟩ := agree.exec first id
    rw [isDest] at mirrored ran
    rw [Instr.mapDest_id] at mirrored
    obtain ⟨last, ranRest, agreeRest, backedRest, keeps⟩ := restIH agree backed ran
    exact ⟨last, Instr.execAll_cons_next_iff.2 ⟨_, mirrored, ranRest⟩, agreeRest, backedRest, keeps⟩
  | @write instr rest renamed scope out dest name isDest isNew _ restIH =>
    obtain ⟨middle, first, ran⟩ := Instr.execAll_cons_next_iff.1 ran
    obtain ⟨effect, rfl, isNext, hasValue, mirrored⟩ := agree.exec first fun _ => name
    rw [isDest, Option.isSome_some, Option.isSome_iff_exists] at hasValue
    obtain ⟨value, isValue⟩ := hasValue
    simp only [isDest, Option.map_some, State.after, isValue] at mirrored ran
    obtain ⟨last, ranRest, agreeRest, backedRest, keeps⟩ :=
      restIH (agree.set isNew dest value) (backed.set dest value) ran
    -- What had a value before the write has one behind it.
    exact ⟨last, Instr.execAll_cons_next_iff.2 ⟨_, mirrored, ranRest⟩, agreeRest, backedRest,
      fun other held => keeps other (Env.set_isSome _ _ held)⟩

/-- Making undefined values changes nothing else. -/
theorem execAll_undefs (machine : Machine) (calls : Calls) {makers : List Instr}
    (isUndef : ∀ instr ∈ makers, ∃ dest ty key, instr = (Instr.undef dest ty).withKey key)
    (mirror : Env) (lines : List String) :
    Instr.execAll machine calls makers ⟨mirror, lines⟩ =
      some (⟨mirror.assign ((makers.filterMap Instr.dest?).map fun name => (name, .undef)), lines⟩,
        .next) := by
  induction makers generalizing mirror with
  | nil => rfl
  | cons instr rest restIH =>
    obtain ⟨dest, ty, key, rfl⟩ := isUndef instr (List.mem_cons_self ..)
    have here : ((Instr.undef dest ty).withKey key).exec machine calls ⟨mirror, lines⟩ =
        some (⟨mirror.set dest .undef, lines⟩, .next) := by
      simp [Instr.exec, Instr.reads, Instr.withKey, Instr.undef, Instr.compute, Action.reads,
        Action.perform, Action.performCompute, State.after, Instr.dest?, Action.dest?]
    rw [Instr.execAll_cons, here, Option.bind_some, if_pos rfl,
      restIH fun other member => isUndef other (List.mem_cons_of_mem _ member)]
    rfl

/-! ## Arrival at a block -/

section Arrival

variable {graph after : FlowGraph} {dominance : Dominance} {records : String → Renamed}

/-- A variable that a block does not merge has one name at the end of all blocks that lead to it: the
one it has at the end of the block that dominates it most closely. Any block in between that writes or
merges the variable would have it merged here. -/
theorem Converted.out_eq (converted : Converted graph after dominance records)
    {upper source target var : String}
    (immediate : Immediate graph.Leads graph.entryName upper target)
    (leads : graph.Leads source target) (notPlaced : ¬ Placed graph dominance target var) :
    (records source).out.get? var = (records upper).out.get? var := by
  have nodup := converted.wellFormed.nodup_names
  have reached := converted.reachable_of_leads leads
  refine Reaches.immediate_induction (fun node =>
    Midend.Dominates graph.Leads graph.entryName upper node →
    Midend.Dominates graph.Leads graph.entryName node source →
      (records node).out.get? var = (records upper).out.get? var) ?_ ?_ reached
    (immediate.dominates_source reached leads) (.refl reached)
  · intro above _
    rw [above.antisymm (.of_start above.reaches_upper)]
  · intro parent node isParent parentIH above below
    rcases isParent.eq_or_dominates above with rfl | aboveParent
    · rfl
    · rw [← parentIH aboveParent (isParent.strict.2.trans below)]
      -- The target lies on the frontier of the node.
      have onFrontier : target ∈ dominance.frontier node := by
        rw [converted.built.mem_frontier, FlowGraph.succeeds_successorMap nodup]
        refine ⟨source, below, leads, fun strict => ?_⟩
        have circle := (immediate.closest node strict).trans aboveParent
        exact isParent.strict.1 (isParent.strict.2.antisymm circle)
      have untouched : ¬ (Writes graph node var ∨ Placed graph dominance node var) :=
        fun held => notPlaced (placed_of_frontier converted.built held onFrontier)
      rw [not_or] at untouched
      have settled := converted.settled node below.reaches_upper
      obtain ⟨block, found, renames⟩ := settled.exists_renames
      obtain ⟨member, rfl⟩ := (FlowGraph.find?_eq_some_iff nodup).1 found
      rw [renames.get?_eq fun instr inside isDest =>
        untouched.1 (writes_of_mem member inside isDest), settled.mid_of_not_placed _ untouched.2,
        converted.inherited_eq _ _ isParent]

/-- What is in force above a block that does not merge a variable is in force at the end of the blocks
that lead to it. -/
theorem Converted.inherited_of_leads (converted : Converted graph after dominance records)
    {source target var : String} (leads : graph.Leads source target)
    (notPlaced : ¬ Placed graph dominance target var) :
    (records target).inherited.get? var = (records source).out.get? var := by
  have notEntry : target ≠ graph.entryName := by
    rintro rfl
    exact converted.wellFormed.not_leads_entry source leads
  have reached := (converted.reachable_of_leads leads).step leads
  obtain ⟨upper, immediate⟩ := Reaches.exists_immediate reached notEntry
  rw [converted.inherited_eq _ _ immediate, converted.out_eq immediate leads notPlaced]

/-- The names given out for a block are distinct. -/
theorem Converted.nodup_fresh (converted : Converted graph after dominance records) {name : String}
    (reached : graph.Reachable name) : (records name).fresh.Nodup := by
  obtain ⟨names, supplied⟩ := converted.supplied
  exact (List.nodup_flatMap.1 supplied.nodup).1 name (converted.mem_preorder.2 reached)

/-- Merges that select from a block write the values of the names they name. -/
theorem select_phi {source dest : String} {ty : Ty} {labels : List String} {value : String → String}
    {mirror : Env} {key : Nat} {held : Value} (member : source ∈ labels)
    (atValue : mirror (value source) = some held) :
    Instr.select source mirror ((Instr.phi dest ty (labels.map value) labels).withKey key) =
      some (dest, held) := by
  have lookup : (labels.zip (labels.map value)).lookup source = some (value source) := by
    induction labels with
    | nil => cases member
    | cons label rest restIH =>
      rw [List.map_cons, List.zip_cons_cons, List.lookup_cons]
      cases same : source == label with
      | true => rw [eq_of_beq same]
      | false =>
        refine restIH ((List.mem_cons.1 member).resolve_left ?_)
        rintro rfl
        simp at same
  have incoming : ((Instr.phi dest ty (labels.map value) labels).withKey key).incoming =
    labels.zip (labels.map value) := rfl
  have isDest : ((Instr.phi dest ty (labels.map value) labels).withKey key).dest? = some dest := rfl
  rw [Instr.select, isDest, incoming, lookup]
  simp [atValue]

/-- What a run has done when it leaves a block: it followed a path, on which all names in force got
values, and the names in force at its end hold the values of their variables. -/
structure Left (graph : FlowGraph) (records : String → Renamed) (source : String)
    (env mirror : Env) : Prop where
  /-- The path, and the names on it. -/
  exists_path : ∃ nodes, Path graph.Leads graph.entryName nodes source ∧
    ∀ node ∈ nodes, Backed (records node).out mirror
  /-- The names in force hold the values of their variables. -/
  agree : Agree (records source).out env mirror
  /-- Undefined values were made. -/
  made : ∀ var name, (records source).undefs.get? var = some name → (mirror name).isSome

/-- What the merges of a block write when a run comes from another one. -/
def arrivals (graph : FlowGraph) (dominance : Dominance) (records : String → Renamed)
    (source target : String) (mirror : Env) : List (String × Value) :=
  ((placePhis graph dominance).getD target []).map fun phi =>
    ((records target).mid.getD phi.var "", (mirror ((records source).value phi.var)).getD .undef)

section Enter

variable {block image : Block} {source : String} {env mirror : Env}

/-- The values that merges take from a block are there when a run leaves it. -/
theorem Converted.exists_value (converted : Converted graph after dominance records)
    (leads : graph.Leads source block.name) (left : Left graph records source env mirror)
    {phi : PendingPhi} (isPlaced : phi ∈ (placePhis graph dominance).getD block.name []) :
    ∃ value, mirror ((records source).value phi.var) = some value := by
  rw [← Option.isSome_iff_exists, Renamed.value, valueOf]
  cases inForce : (records source).out.get? phi.var with
  | some name =>
    obtain ⟨nodes, path, backed⟩ := left.exists_path
    exact backed source path.finish_mem phi.var name inForce
  | none =>
    obtain ⟨name, isMade⟩ := (converted.settled source
      (converted.reachable_of_leads leads)).valued block.name leads phi isPlaced inForce
    rw [Option.getD_none, SortedMap.getD, isMade]
    exact left.made phi.var name isMade

/-- The merges of a block write its new names. -/
theorem Converted.map_fst_arrivals (converted : Converted graph after dominance records)
    (member : block ∈ graph.blocks) (source : String) (mirror : Env) :
    (arrivals graph dominance records source block.name mirror).map Prod.fst =
      (records block.name).dests := by
  rw [(converted.settled block.name (converted.reachable block member)).dests_eq, arrivals,
    List.map_map]
  rfl

/-- They write each of them once. -/
theorem Converted.nodup_arrivals (converted : Converted graph after dominance records)
    (member : block ∈ graph.blocks) (source : String) (mirror : Env) :
    ((arrivals graph dominance records source block.name mirror).map Prod.fst).Nodup := by
  rw [converted.map_fst_arrivals member]
  exact (converted.nodup_fresh (converted.reachable block member)).sublist
    ((List.sublist_append_left ..).trans (List.sublist_append_left ..))

/-- Entering a converted block from another one writes what arrives. -/
theorem Converted.enter_eq (converted : Converted graph after dominance records)
    (isImage : Image block image (records block.name)
      (mergesOf graph dominance records block.name))
    (leads : graph.Leads source block.name) (left : Left graph records source env mirror) :
    Instr.enter image.phis (some source) mirror =
      some (mirror.assign (arrivals graph dominance records source block.name mirror)) := by
  obtain ⟨phis, _, _, _, rekeyed, phis_eq, _⟩ := isImage.exists_parts
  have selected : phis.mapM (Instr.select source mirror) =
      some (arrivals graph dominance records source block.name mirror) := by
    rw [mergesOf, List.forall₂_map_left_iff] at rekeyed
    refine Instr.mapM_eq_some_of_forall₂
      (forall₂_imp_of_mem rekeyed fun phi isPlaced keyed isKeyed => ?_)
    obtain ⟨key, rfl⟩ := isKeyed
    obtain ⟨value, isValue⟩ := converted.exists_value leads left isPlaced
    rw [isValue, Option.getD_some]
    exact select_phi (converted.mem_sourcesOf.2 leads) isValue
  rw [phis_eq, Instr.enter_some, selected, Option.map_some]

/-- Merges give the variables of a block their values. -/
theorem Converted.enter (converted : Converted graph after dominance records)
    (member : block ∈ graph.blocks)
    (isImage : Image block image (records block.name)
      (mergesOf graph dominance records block.name))
    (leads : graph.Leads source block.name) (left : Left graph records source env mirror) :
    ∃ entered, Instr.enter image.phis (some source) mirror = some entered ∧
      Agree (records block.name).mid env entered ∧ Backed (records block.name).mid entered ∧
        Keeps mirror entered := by
  have settled := converted.settled block.name (converted.reachable block member)
  have writes_fst := converted.map_fst_arrivals member source mirror
  refine ⟨_, converted.enter_eq isImage leads left, ?_, ?_, ?_⟩
  · intro var value held
    obtain ⟨name, inForce, atName⟩ := left.agree var value held
    by_cases isPlaced : Placed graph dominance block.name var
    · obtain ⟨phi, inside, rfl⟩ := isPlaced
      obtain ⟨dest, _, isDest⟩ := settled.mid_of_mem phi inside
      refine ⟨dest, isDest, Env.assign_of_mem (converted.nodup_arrivals member source mirror)
        (List.mem_map.2 ⟨phi, inside, ?_⟩) mirror⟩
      rw [SortedMap.getD, isDest, Renamed.value, valueOf, inForce, Option.getD_some,
        Option.getD_some, atName, Option.getD_some]
    · -- The variable keeps the name that it had, which no merge writes.
      refine ⟨name, ?_, ?_⟩
      · rw [settled.mid_of_not_placed var isPlaced, converted.inherited_of_leads leads isPlaced,
          inForce]
      · rw [Env.assign_of_notMem, atName]
        rw [writes_fst]
        intro isDest
        refine settled.inherited_notMem var name ?_
          (List.mem_append_left _ (List.mem_append_left _ isDest))
        rw [converted.inherited_of_leads leads isPlaced, inForce]
  · intro var name inForce
    by_cases isPlaced : Placed graph dominance block.name var
    · obtain ⟨phi, inside, rfl⟩ := isPlaced
      obtain ⟨dest, isDest, atVar⟩ := settled.mid_of_mem phi inside
      obtain rfl := Option.some.inj (inForce.symm.trans atVar)
      exact Env.assign_isSome mirror (.inl (writes_fst ▸ isDest))
    · rw [settled.mid_of_not_placed var isPlaced, converted.inherited_of_leads leads isPlaced]
        at inForce
      obtain ⟨nodes, path, backed⟩ := left.exists_path
      exact Env.assign_isSome mirror (.inr (backed source path.finish_mem var name inForce))
  · exact fun name held => Env.assign_isSome mirror (.inr held)

end Enter

/-- The entry merges nothing. -/
theorem Converted.phis_entry (converted : Converted graph after dominance records) {block image : Block}
    (isImage : Image block image (records block.name)
      (mergesOf graph dominance records block.name)) (isEntry : block.name = graph.entryName) :
    image.phis = [] ∧ ∀ var, ¬ Placed graph dominance block.name var := by
  have none : (placePhis graph dominance).getD block.name [] = [] := by
    refine List.eq_nil_iff_forall_not_mem.2 fun phi isPlaced => ?_
    obtain ⟨source, leads⟩ := converted.exists_leads_of_placed isPlaced
    exact converted.wellFormed.not_leads_entry source (isEntry ▸ leads)
  obtain ⟨phis, _, _, _, rekeyed, phis_eq, _⟩ := isImage.exists_parts
  rw [mergesOf, none, List.map_nil, List.forall₂_nil_left_iff] at rekeyed
  refine ⟨phis_eq.trans rekeyed, ?_⟩
  rintro var ⟨phi, isPlaced, _⟩
  rw [none] at isPlaced
  cases isPlaced

/-- From the end of its merges on, a converted block runs like the original one. -/
theorem Converted.run (converted : Converted graph after dominance records) {block image : Block}
    (member : block ∈ graph.blocks)
    (isImage : Image block image (records block.name)
      (mergesOf graph dominance records block.name)) {machine : Machine} {calls : Calls}
    {env entered : Env} {lines : List String} {next : State} {control : Control}
    (agree : Agree (records block.name).mid env entered)
    (backed : Backed (records block.name).mid entered)
    (ran : Instr.execAll machine calls block.instrs ⟨env, lines⟩ = some (next, control)) :
    ∃ last, Instr.execAll machine calls image.body ⟨entered, lines⟩ =
        some (⟨last, next.lines⟩, control) ∧
      Agree (records block.name).out next.env last ∧ Backed (records block.name).out last ∧
      Keeps entered last ∧
      ∀ var name, (records block.name).undefs.get? var = some name → (last name).isSome := by
  have settled := converted.settled block.name (converted.reachable block member)
  obtain ⟨_, phis, front, others, terminator, _, _, split, plain, ends, checked, renames, body_eq,
    record_eq⟩ := isImage
  rw [split, Instr.execAll_concat_iff plain] at ran
  obtain ⟨between, ranFront, ranLast⟩ := ran
  obtain ⟨mirror, mirrored, agreeFront, backedFront, keeps⟩ := renames.execAll agree backed ranFront
  have makers := execAll_undefs machine calls settled.isUndef mirror between.lines
  have writes_fst : ((((records block.name).makers.filterMap Instr.dest?).map fun name =>
      (name, Value.undef)).map Prod.fst) = (records block.name).makers.filterMap Instr.dest? := by
    rw [List.map_map]
    exact List.map_id _
  -- The undefined values get names that are not in force.
  have agreeLast : Agree (records block.name).out between.env (mirror.assign
      (((records block.name).makers.filterMap Instr.dest?).map fun name => (name, .undef))) := by
    refine agreeFront.of_eq fun var name inForce => Env.assign_of_notMem ?_ mirror
    rw [writes_fst]
    exact settled.notMem_makers (converted.nodup_fresh (converted.reachable block member)) inForce
  obtain ⟨effect, rfl, rfl, _, ranTerminator⟩ := agreeLast.exec ranLast id
  rw [Instr.dest?_of_terminator checked ends, Option.map_none, Instr.mapDest_id] at ranTerminator
  rw [Instr.dest?_of_terminator checked ends]
  refine ⟨_, ?_, agreeLast, ?_, ?_, ?_⟩
  · have areInner := renames.inner (inner_of_split (converted.wellFormed.blocks block member)
      (converted.unmerged block member) split plain) settled.isUndef
    rw [body_eq, Instr.execAll_concat_iff fun instr inside => (areInner instr inside).isTerminator]
    refine ⟨_, ?_, ranTerminator⟩
    rw [Instr.execAll_append, mirrored, Option.bind_some, if_pos rfl]
    exact makers
  · exact fun var name inForce => Env.assign_isSome _ (.inr (backedFront var name inForce))
  · exact fun name held => Env.assign_isSome _ (.inr (keeps name held))
  · intro var name isMade
    refine Env.assign_isSome _ (.inl ?_)
    rw [writes_fst]
    exact settled.made var name isMade

/-- A run that comes to a block: at its start the parameters are in force, and later it has left
another block. -/
def Arrives (graph : FlowGraph) (records : String → Renamed) (target : String) :
    Option String → Env → Env → Prop
  | none, env, mirror => target = graph.entryName ∧ Agree (startScope graph) env mirror ∧
      Backed (startScope graph) mirror
  | some source, env, mirror => graph.Leads source target ∧ Left graph records source env mirror

/-- With the parameters bound, a run comes to the entry. -/
theorem arrives_entry {args : List Value} {env : Env}
    (bound : bindParams graph.params args = some env) :
    Arrives graph records graph.entryName none env env := by
  refine ⟨rfl, fun var value held => ?_, fun var name inForce => ?_⟩
  · have isParam := (isSome_of_bindParams bound var).1 (by rw [held]; rfl)
    exact ⟨var, get?_startScope.2 ⟨isParam, rfl⟩, held⟩
  · obtain ⟨isParam, rfl⟩ := get?_startScope.1 inForce
    exact (isSome_of_bindParams bound _).2 isParam

/-- The merges of a block that a run comes to, if there are any, put its names in force. -/
theorem Converted.enter_of_arrives (converted : Converted graph after dominance records)
    {block image : Block} (member : block ∈ graph.blocks)
    (isImage : Image block image (records block.name)
      (mergesOf graph dominance records block.name)) {source : Option String} {env mirror : Env}
    (arrives : Arrives graph records block.name source env mirror) :
    ∃ entered, Instr.enter image.phis source mirror = some entered ∧
      Agree (records block.name).mid env entered ∧ Backed (records block.name).mid entered ∧
        Keeps mirror entered := by
  cases source with
  | some source => exact converted.enter member isImage arrives.1 arrives.2
  | none =>
    obtain ⟨isEntry, agree, backed⟩ := arrives
    obtain ⟨noPhis, notPlaced⟩ := converted.phis_entry isImage isEntry
    have settled := converted.settled block.name (converted.reachable block member)
    have same : ∀ var, (records block.name).mid.get? var = (startScope graph).get? var := by
      intro var
      rw [settled.mid_of_not_placed var (notPlaced var), isEntry, converted.inherited_entry]
    refine ⟨mirror, by rw [noPhis, Instr.enter_nil], ?_, ?_, fun _ => id⟩
    · intro var value held
      rw [same]
      exact agree var value held
    · intro var name inForce
      exact backed var name (same var ▸ inForce)

/-- A run that leaves a block has followed one more step of its path. -/
theorem Arrives.exists_path {name : String} {source : Option String} {env mirror last : Env}
    (arrives : Arrives graph records name source env mirror) (keeps : Keeps mirror last)
    (backed : Backed (records name).out last) :
    ∃ nodes, Path graph.Leads graph.entryName nodes name ∧
      ∀ node ∈ nodes, Backed (records node).out last := by
  cases source with
  | none =>
    obtain ⟨isEntry, _⟩ := arrives
    refine ⟨[name], isEntry ▸ .start, fun node inside => ?_⟩
    rw [List.mem_singleton.1 inside]
    exact backed
  | some source =>
    obtain ⟨nodes, path, backedPath⟩ := arrives.2.exists_path
    refine ⟨name :: nodes, path.step arrives.1, fun node inside => ?_⟩
    rcases List.mem_cons.1 inside with rfl | earlier
    · exact backed
    · exact fun var other inForce => keeps other (backedPath node earlier var other inForce)

/-- The conversion of a flow graph yields what the flow graph yields. -/
theorem Converted.refines (converted : Converted graph after dominance records)
    (machine : Machine) : graph.Refines machine after := by
  refine FlowGraph.refines_of_blockwise converted.wellFormed converted.params_eq converted.images
    (fun _ _ isImage => isImage.name_eq)
    (fun block source env mirror => Arrives graph records block.name source env mirror)
    (fun args env first bound isEntry => isEntry ▸ arrives_entry bound) ?_
  intro calls block image source env mirror lines next control member isImage arrives ran
  have ranAll : Instr.execAll machine calls block.instrs ⟨env, lines⟩ = some (next, control) := by
    rwa [Block.exec_of_unmerged (converted.unmerged block member)] at ran
  obtain ⟨entered, enters, agree, backed, keeps⟩ :=
    converted.enter_of_arrives member isImage arrives
  obtain ⟨last, mirrored, agreeLast, backedLast, keepsLast, made⟩ :=
    converted.run member isImage agree backed ranAll
  exact ⟨last, Block.exec_eq_some_iff.2 ⟨entered, enters, mirrored⟩, fun target _ leads =>
    ⟨leads, arrives.exists_path (fun name held => keepsLast name (keeps name held)) backedLast,
      agreeLast, made⟩⟩

end Arrival

/-- The conversion into single assignment yields what the flow graph yields. -/
theorem refines_construct {graph after : FlowGraph} {log : Log} (wellFormed : graph.WellFormed)
    (unmerged : ∀ block ∈ graph.blocks, ∀ instr ∈ block.instrs, instr.isPhi = false)
    (constructed : construct graph = .ok (after, log)) (machine : Machine) :
    graph.Refines machine after := by
  obtain ⟨pruned, dominance, records, isPruned, converted⟩ :=
    converted_of_construct wellFormed unmerged constructed
  exact (isPruned.refines wellFormed machine).trans (converted.refines machine)

end Ssa

end Midend
