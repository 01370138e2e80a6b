import Midend.Proofs.FlowGraph.Build
import Midend.Proofs.Ssa.Destruct

/-! # Runs without merges

Where merges became copies, the copies of a block have the effect of the merges of the next one by
the time that is reached (`Ssa.Lowered.refines`). With the edges that were split first, the way out
of single assignment keeps what a flow graph does (`Ssa.Destructed.refines`). -/

namespace Midend

/-- A merge that is entered from a block keeps the value of its variable. -/
def Instr.Keeps (source : String) (phi : Instr) : Prop :=
  ∃ dest, phi.dest? = some dest ∧ phi.incoming.lookup source = some dest

namespace Ssa

/-- Merges of a block of which copies have the effect, from wherever it is entered: if the last merge
of a variable keeps it, then so do the others. -/
def SteadyMerges (phis : List Instr) : Prop :=
  ∀ source front last back, phis = front ++ last :: back →
    (∀ other ∈ back, other.dest? ≠ last.dest?) → last.Keeps source →
      ∀ other ∈ front, other.dest? = last.dest? → other.Keeps source

/-- Merges of distinct variables are steady. -/
theorem steadyMerges_of_nodup {phis : List Instr} (distinct : (phis.filterMap Instr.dest?).Nodup) :
    SteadyMerges phis := by
  rintro source front last back rfl _ ⟨dest, isDest, _⟩ other member same
  have apart := (List.pairwise_append.1 (List.pairwise_filterMap.1 distinct)).2.2 other member last
    (List.mem_cons_self ..)
  exact absurd rfl (apart dest (same.trans isDest) dest isDest)

/-- What the way out of single assignment relies on to keep runs: merges fit, branches lead to two
blocks, no merge takes back what another one of its block gives the same variable, and the variables
are told apart from temporaries. -/
structure Lowerable (base : String → Prop) (graph : FlowGraph) : Prop where
  /-- The flow graph is well-formed. -/
  wellFormed : graph.WellFormed
  /-- Merges name the predecessors of their blocks. -/
  fit : graph.PhisFit
  /-- Branches lead to two blocks. -/
  branches : ∀ block ∈ graph.blocks, ∀ instr ∈ block.instrs, instr.op? = some .br →
    1 < block.successors.length
  /-- Copies can have the effect of the merges of a block. -/
  steady : ∀ block ∈ graph.blocks, SteadyMerges block.phis
  /-- What is read or written is no temporary. -/
  vars : ∀ block ∈ graph.blocks, ∀ instr ∈ block.instrs,
    (∀ arg ∈ instr.args, base arg) ∧ ∀ dest, instr.dest? = some dest → base dest

/-- Merges that are entered from a block by another name keep their variables as before. -/
theorem keeps_relabel_iff {phi : Instr} (isPhi : phi.isPhi = true) {source : String}
    {merges jumps : String → String}
    (apart : ∀ label ∈ phi.labels, merges label = merges source → label = source) :
    (phi.relabel merges jumps).Keeps (merges source) ↔ phi.Keeps source := by
  rw [Instr.Keeps, Instr.Keeps, Instr.dest?_relabel, Instr.relabel, if_pos isPhi, Instr.incoming,
    Instr.labels_mapLabels, Instr.args_mapLabels, Instr.lookup_map_zip apart, ← Instr.incoming]

/-- Merges whose labels are replaced stay steady, if labels are told apart by what replaces them. -/
theorem SteadyMerges.relabel {phis : List Instr} (steady : SteadyMerges phis)
    (areMerges : ∀ phi ∈ phis, phi.isPhi = true) {merges : String → String}
    (apart : ∀ phi ∈ phis, ∀ label ∈ phi.labels, ∀ other ∈ phis, ∀ another ∈ other.labels,
      merges another = merges label → another = label) (jumps : String → String) :
    SteadyMerges (phis.map (Instr.relabel merges jumps)) := by
  intro source front last back split later keeps other member same
  obtain ⟨oldFront, rest, rfl, rfl, isRest⟩ := List.map_eq_append_iff.1 split
  obtain ⟨oldLast, oldBack, rfl, rfl, rfl⟩ := List.map_eq_cons_iff.1 isRest
  obtain ⟨oldOther, inFront, rfl⟩ := List.mem_map.1 member
  have isLast : oldLast ∈ oldFront ++ oldLast :: oldBack := by simp
  have isOther : oldOther ∈ oldFront ++ oldLast :: oldBack := List.mem_append_left _ inFront
  -- The source is what replaces a label of the last merge.
  obtain ⟨dest, isDest, found⟩ := keeps
  have isLabel := (List.of_mem_zip (Instr.mem_of_lookup found)).1
  rw [Instr.relabel, if_pos (areMerges _ isLast), Instr.labels_mapLabels] at isLabel
  obtain ⟨label, inLabels, rfl⟩ := List.mem_map.1 isLabel
  rw [Instr.dest?_relabel, Instr.dest?_relabel] at same
  rw [keeps_relabel_iff (areMerges _ isOther) (apart _ isLast label inLabels _ isOther)]
  refine steady label oldFront oldLast oldBack rfl (fun another isLater => ?_) ?_ _ inFront same
  · have differs := later _ (List.mem_map_of_mem isLater)
    rwa [Instr.dest?_relabel, Instr.dest?_relabel] at differs
  · exact (keeps_relabel_iff (areMerges _ isLast) (apart _ isLast label inLabels _ isLast)).1
      ⟨dest, isDest, found⟩

/-- Splitting an edge changes labels only. -/
theorem Lowerable.split {base : String → Prop} {graph after : FlowGraph} {source target : String}
    {middle : Block} (lowerable : Lowerable base graph)
    (split : graph.EdgeSplit source target middle after) : Lowerable base after := by
  have wellFormed := lowerable.wellFormed
  obtain ⟨jump, isJump, action⟩ := split.jumps
  -- What holds of the jump and of all instructions but for their labels.
  have each : ∀ {holds : Block → Instr → Prop}, holds middle jump →
      (∀ block ∈ graph.blocks, ∀ instr ∈ block.instrs,
        holds (FlowGraph.detour source target middle.name block)
          (instr.relabel (if block.name = target then FlowGraph.replaceName source middle.name else id)
            (if block.name = source then FlowGraph.replaceName target middle.name else id))) →
      ∀ block ∈ after.blocks, ∀ instr ∈ block.instrs, holds block instr := by
    intro holds atJump others block member instr inside
    rcases split.mem_blocks.1 member with rfl | ⟨original, isOriginal, rfl⟩
    · rw [isJump, List.mem_singleton] at inside
      rwa [inside]
    · obtain ⟨old, isOld, rfl⟩ := List.mem_map.1 inside
      exact others original isOriginal old isOld
  refine ⟨split.wellFormed_after wellFormed, split.phisFit wellFormed lowerable.fit,
    each ?_ fun block member instr inside => ?_, fun block member => ?_,
    each ?_ fun block member instr inside => ?_⟩
  · intro isBranch
    rw [Instr.op?, action] at isBranch
    cases isBranch
  · rw [Instr.op?_relabel, split.length_successors wellFormed member]
    exact lowerable.branches block member instr inside
  · rcases split.mem_blocks.1 member with rfl | ⟨original, isOriginal, rfl⟩
    · rw [split.middle_spec.2.2]
      exact steadyMerges_of_nodup .nil
    · rw [FlowGraph.detour, Block.phis_relabel]
      have known : ∀ phi ∈ original.phis, ∀ label ∈ phi.labels, label ∈ graph.names :=
        fun phi isPhi label isLabel => FlowGraph.mem_names_of_leads_left
          ((lowerable.fit.mem_labels wellFormed.nodup_names isOriginal isPhi).1 isLabel)
      refine (lowerable.steady original isOriginal).relabel (fun _ => List.mem_takeWhile_imp) ?_ _
      exact fun phi isPhi label isLabel other isOther another isAnother =>
        split.eq_of_replaced_eq _ (known other isOther another isAnother)
          (known phi isPhi label isLabel)
  · rw [Instr.args, Instr.dest?, action]
    exact ⟨fun arg isArg => absurd isArg List.not_mem_nil, fun dest isDest => by cases isDest⟩
  · rw [Instr.args_relabel, Instr.dest?_relabel]
    exact lowerable.vars block member instr inside

/-! ## Copies for merges -/

/-- Copies that stand for merges write what the merges select. -/
theorem Feeds.copies {source : String} {phis : List Instr} {copies : List Copy} {env mirror : Env}
    {writes : List (String × Value)} (feeds : Feeds source phis copies)
    (selected : phis.mapM (Instr.select source env) = some writes)
    (carried : ∀ copy ∈ copies, ∀ value, env copy.src = some value →
      mirror copy.src = some value) : Copies mirror copies writes := by
  rw [mapM_eq_some_iff] at selected
  induction feeds generalizing writes with
  | nil =>
    cases selected
    exact .nil
  | @cons phi copy phis copies isCopy _ restIH =>
    rcases selected with _ | ⟨isWrite, selected⟩
    obtain ⟨arg, isDest, isArg, isValue⟩ := Instr.select_eq_some_iff.1 isWrite
    obtain rfl := Option.some.inj (isCopy.2.symm.trans isArg)
    refine .cons ⟨Option.some.inj (isCopy.1.symm.trans isDest), ?_⟩
      (restIH selected fun copy member => carried copy (List.mem_cons_of_mem _ member))
    exact carried copy (List.mem_cons_self ..) _ isValue

/-- Copies that stand for steady merges are steady. -/
theorem Feeds.steady {source : String} {phis : List Instr} {copies : List Copy}
    (feeds : Feeds source phis copies) (steady : SteadyMerges phis) : SteadyCopies copies := by
  rintro front last back rfl later keeps other member same
  obtain ⟨phiFront, rest, rfl, inFront, inRest⟩ := exists_split_of_forall₂ feeds.flip
  obtain ⟨phi, phiBack, ⟨isDest, isSource⟩, inBack, rfl⟩ := List.forall₂_cons_left_iff.1 inRest
  obtain ⟨merge, isMerge, otherDest, otherSource⟩ := exists_of_forall₂_left inFront member
  have isLast : ∀ another ∈ phiBack, another.dest? ≠ phi.dest? := by
    intro another isLater sameDest
    obtain ⟨copy, isCopy, anotherDest, _⟩ := exists_of_forall₂_right inBack isLater
    rw [anotherDest, isDest] at sameDest
    exact later copy isCopy (Option.some.inj sameDest)
  obtain ⟨dest, mergeDest, mergeSource⟩ := steady source phiFront phi phiBack rfl isLast
    ⟨last.dest, isDest, keeps ▸ isSource⟩ merge isMerge (by rw [otherDest, isDest, same])
  rw [otherDest] at mergeDest
  rw [otherSource] at mergeSource
  exact Option.some.inj (mergeDest.trans mergeSource.symm)

/-! ## Runs -/

namespace Lowered

variable {base : String → Prop} {graph after : FlowGraph}

/-- The run of a block up to where it ends, in the place of the merges that it was entered by. -/
theorem exec_middle (lowerable : Lowerable base graph) {block image : Block}
    (member : block ∈ graph.blocks) {middle keyed : List Instr} {terminator : Instr}
    (body_eq : block.body = middle ++ [terminator])
    (instrs_eq : image.instrs = (middle ++ keyed) ++ [terminator])
    (plain : ∀ instr ∈ image.instrs, instr.isPhi = false)
    (goesOn : ∀ instr ∈ keyed, instr.isTerminator = false) {machine : Machine} {calls : Calls}
    {source : Option String} (origin : Option String) {env mirror : Env} {lines : List String}
    {next : State} {control : Control}
    (carries : ∀ entered, Instr.enter block.phis source env = some entered →
      Env.Carries base id entered mirror)
    (ran : block.exec machine calls source ⟨env, lines⟩ = some (next, control)) :
    ∃ between reached, Env.Carries base id between.env reached ∧
      terminator.exec machine calls between = some (next, control) ∧
      ∀ last, Instr.execAll machine calls keyed ⟨reached, between.lines⟩ =
          some (⟨last, between.lines⟩, .next) →
        image.exec machine calls origin ⟨mirror, lines⟩ =
          terminator.exec machine calls ⟨last, between.lines⟩ := by
  obtain ⟨_, _, _, _, straight⟩ := (lowerable.wellFormed.blocks block member).of_body_eq body_eq
  obtain ⟨entered, isEntered, ran⟩ := Block.exec_eq_some_iff.1 ran
  rw [body_eq, Instr.execAll_concat_iff straight] at ran
  obtain ⟨between, ranMiddle, ranLast⟩ := ran
  obtain ⟨reached, mirrored, carried⟩ := (carries entered isEntered).execAll_same
    (fun instr inMiddle => (lowerable.vars block member instr (Block.mem_of_mem_body (by
      rw [body_eq]
      exact List.mem_append_left _ inMiddle))).1) ranMiddle
  refine ⟨between, reached, carried, ranLast, fun last ranCopies => Option.ext fun step => ?_⟩
  obtain ⟨final, goes⟩ := step
  rw [Block.exec_of_unmerged plain, instrs_eq, Instr.execAll_concat_iff]
  · rw [Instr.execAll_append, mirrored, Option.bind_some, if_pos rfl, ranCopies]
    constructor
    · rintro ⟨_, isState, ranEnd⟩
      obtain rfl := (Prod.mk.inj (Option.some.inj isState)).1
      exact ranEnd
    · exact fun ranEnd => ⟨_, rfl, ranEnd⟩
  · intro instr inside
    rcases List.mem_append.1 inside with inMiddle | isCopy
    · exact straight instr inMiddle
    · exact goesOn instr isCopy

/-- What a block became. -/
theorem exists_image (lowered : Lowered graph after) (formed : after.WellFormed) {block : Block}
    (member : block ∈ graph.blocks) :
    ∃ image, after.find? block.name = some image ∧ image ∈ after.blocks ∧
      ∃ middle terminator supply keyed, block.body = middle ++ [terminator] ∧
        image.instrs = (middle ++ keyed) ++ [terminator] ∧
        List.Forall₂ FlowGraph.Rekeyed
          (sequentialize ((copiesByBlock graph).getD block.name []) supply).1 keyed := by
  obtain ⟨image, imageMember, name_eq, parts⟩ := exists_of_forall₂_left lowered.blocks member
  exact ⟨image, (FlowGraph.find?_eq_some_iff formed.nodup_names).2 ⟨imageMember, name_eq⟩,
    imageMember, parts⟩

/-- A block on arrival and what it became: the image holds by now what the merges of the block are
about to select. -/
structure Mirrors (base : String → Prop) (graph after : FlowGraph) (block image : Block)
    (source : Option String) (env mirror : Env) : Prop where
  /-- The block is in the flow graph. -/
  member : block ∈ graph.blocks
  /-- The image has its name. -/
  found : after.find? block.name = some image
  /-- The image holds what the block does behind its merges. -/
  carries : ∀ entered, Instr.enter block.phis source env = some entered →
    Env.Carries base id entered mirror

/-- The entries mirror each other. -/
theorem mirrors_head (lowered : Lowered graph after) (formed : after.WellFormed) {first : Block}
    (isFirst : graph.blocks.head? = some first) (env : Env) :
    ∃ image, after.blocks.head? = some image ∧
      Mirrors base graph after first image none env env := by
  obtain ⟨rest, isBlocks⟩ := List.head?_eq_some_iff.1 isFirst
  have blocks := lowered.blocks
  rw [isBlocks, List.forall₂_cons_left_iff] at blocks
  obtain ⟨image, others, ⟨name_eq, _⟩, _, isOther⟩ := blocks
  refine ⟨image, by rw [isOther]; rfl, List.mem_of_mem_head? isFirst,
    (FlowGraph.find?_eq_some_iff formed.nodup_names).2 ⟨by rw [isOther]; simp, name_eq⟩, ?_⟩
  -- Nothing is selected at the start of a call.
  intro entered isEntered
  unfold Instr.enter at isEntered
  split at isEntered
  · obtain rfl := Option.some.inj isEntered
    exact .refl base env
  · cases isEntered

/-- A block and its image run alike up to where the copies stand. -/
theorem Mirrors.exec (lowered : Lowered graph after) (lowerable : Lowerable base graph)
    {block image : Block} {source : Option String} {env mirror : Env}
    (mirrors : Mirrors base graph after block image source env mirror) {machine : Machine}
    {calls : Calls} (origin : Option String) {lines : List String} {next : State}
    {control : Control}
    (ran : block.exec machine calls source ⟨env, lines⟩ = some (next, control)) :
    ∃ middle terminator supply keyed between reached, block.body = middle ++ [terminator] ∧
      List.Forall₂ FlowGraph.Rekeyed
        (sequentialize ((copiesByBlock graph).getD block.name []) supply).1 keyed ∧
      Env.Carries base id between.env reached ∧
      terminator.exec machine calls between = some (next, control) ∧
      ∀ last, Instr.execAll machine calls keyed ⟨reached, between.lines⟩ =
          some (⟨last, between.lines⟩, .next) →
        image.exec machine calls origin ⟨mirror, lines⟩ =
          terminator.exec machine calls ⟨last, between.lines⟩ := by
  have wellFormed := lowerable.wellFormed
  have formed := (lowered.recoded wellFormed).wellFormed wellFormed
  obtain ⟨_, found, imageMember, middle, terminator, supply, keyed, body_eq, instrs_eq, rekeyed⟩ :=
    lowered.exists_image formed mirrors.member
  obtain rfl := Option.some.inj (found.symm.trans mirrors.found)
  obtain ⟨between, reached, facts⟩ := exec_middle lowerable mirrors.member body_eq instrs_eq
    (lowered.unmerged wellFormed _ imageMember) (fun _ isCopy => (copy_spec rekeyed isCopy).2.2.2)
    origin mirrors.carries ran
  exact ⟨middle, terminator, supply, keyed, between, reached, body_eq, rekeyed, facts⟩

/-- A block that returns does so without copies, as its image does. -/
theorem Mirrors.halt (lowered : Lowered graph after) (lowerable : Lowerable base graph)
    {block image : Block} {source : Option String} {env mirror : Env}
    (mirrors : Mirrors base graph after block image source env mirror) {machine : Machine}
    {calls : Calls} (origin : Option String) {lines : List String} {next : State}
    {value : Option Value}
    (ran : block.exec machine calls source ⟨env, lines⟩ = some (next, .halt value)) :
    ∃ last, image.exec machine calls origin ⟨mirror, lines⟩ =
      some (⟨last, next.lines⟩, .halt value) := by
  have wellFormed := lowerable.wellFormed
  obtain ⟨middle, terminator, supply, keyed, between, reached, body_eq, rekeyed, carried, ranLast,
    runs⟩ := mirrors.exec lowered lowerable origin ran
  obtain ⟨inBlock, checked, ends, successors_eq, _⟩ :=
    (wellFormed.blocks block mirrors.member).of_body_eq body_eq
  have noCopies : (copiesByBlock graph).getD block.name [] = [] := by
    refine getD_copiesByBlock_of_halt wellFormed lowerable.fit fun target leads => ?_
    rw [FlowGraph.Leads, FlowGraph.successorsOf_eq wellFormed.nodup_names mirrors.member,
      successors_eq, Instr.labels_of_halt checked ends ranLast] at leads
    cases leads
  rw [noCopies] at rekeyed
  cases rekeyed
  obtain ⟨last, ranEnd, _⟩ := carried.exec_same
    (lowerable.vars block mirrors.member terminator inBlock).1 ranLast fun _ isBase _ => isBase
  exact ⟨last, by rw [runs reached rfl, ranEnd]⟩

/-- The copies of a block have the effect of the merges of the block that it leads to. -/
theorem execAll_copies (lowerable : Lowerable base graph)
    (uncritical : ∀ source target, ¬graph.Critical source target)
    (temporary : ∀ stem number, ¬base (numbered (stem ++ ".tmp") "." number)) (machine : Machine)
    (calls : Calls) {source : String} {target : Block} (member : target ∈ graph.blocks)
    (leads : graph.Leads source target.name) (supply : NameSupply) {env reached entered : Env}
    (carried : Env.Carries base id env reached)
    (isEntered : Instr.enter target.phis (some source) env = some entered) (lines : List String) :
    ∃ last, Instr.execAll machine calls
        (sequentialize ((copiesByBlock graph).getD source []) supply).1 ⟨reached, lines⟩ =
          some (⟨last, lines⟩, .next) ∧ Env.Carries base id entered last := by
  have feeds := feeds_of_leads lowerable.wellFormed lowerable.fit uncritical member leads
  have sources : ∀ copy ∈ (copiesByBlock graph).getD source [], base copy.src := by
    intro copy isCopy
    obtain ⟨upper, isUpper, phi, isPhi, _, isSource⟩ :=
      exists_of_mem_copies lowerable.wellFormed lowerable.fit isCopy
    exact (lowerable.vars upper isUpper phi (Block.mem_of_mem_phis isPhi)).1 _ isSource
  rw [Instr.enter_some] at isEntered
  obtain ⟨writes, selected, rfl⟩ := Option.map_eq_some_iff.1 isEntered
  obtain ⟨last, ranCopies, holds⟩ := execAll_sequentialize machine calls supply
    (fun name isBase => .inr fun stem number same => temporary stem number (same ▸ isBase)) lines
    sources (feeds.steady (lowerable.steady target member))
    (feeds.copies selected fun copy isCopy => carried copy.src (sources copy isCopy))
  refine ⟨last, ranCopies, fun var isBase value held => ?_⟩
  rw [id, holds var isBase]
  exact Env.assign_mono (carried var isBase value) held

/-- What ends a block reads the same before and after the copies: a jump reads nothing, and a branch
leads to blocks that merge nothing. -/
theorem read_copied (lowerable : Lowerable base graph)
    (uncritical : ∀ source target, ¬graph.Critical source target) {block target : Block}
    (member : block ∈ graph.blocks) (targetMember : target ∈ graph.blocks)
    (leads : graph.Leads block.name target.name) {terminator : Instr}
    (inBlock : terminator ∈ block.instrs) (checked : terminator.Checked)
    (ends : terminator.isTerminator = true) {machine : Machine} {calls : Calls}
    {between next : State}
    (ranLast : terminator.exec machine calls between = some (next, .jump target.name))
    {entered last : Env}
    (isEntered : Instr.enter target.phis (some block.name) between.env = some entered)
    (carries : Env.Carries base id entered last) {var : String} (isRead : var ∈ terminator.reads)
    {value : Value} (held : between.env var = some value) : last var = some value := by
  rcases Instr.terminator_cases checked ends with ⟨operands, onward, action, _⟩ |
    ⟨operands, condition, positive, negative, action, _⟩ | ⟨operands, action, labels⟩
  · rw [Instr.reads, action] at isRead
    cases isRead
  · have several := lowerable.branches block member terminator inBlock (by
      rw [Instr.op?, action]
      rfl)
    have noPhis : target.phis = [] := by
      by_contra merges
      refine uncritical block.name target.name ⟨leads, ?_, target, targetMember, rfl, merges⟩
      rwa [FlowGraph.successorsOf_eq lowerable.wellFormed.nodup_names member]
    rw [noPhis] at isEntered
    obtain rfl := Option.some.inj isEntered
    exact carries var ((lowerable.vars block member terminator inBlock).1 var
      (Instr.mem_args_of_mem_reads isRead)) value held
  · have isLabel := Instr.jump_mem_labels checked ends ranLast
    rw [Instr.labels, action, Action.operands, labels] at isLabel
    cases isLabel

/-- A block that goes on does so to where its image goes on to, which has copied by then what is
merged there. -/
theorem Mirrors.jump (lowered : Lowered graph after) (lowerable : Lowerable base graph)
    (uncritical : ∀ source target, ¬graph.Critical source target)
    (temporary : ∀ stem number, ¬base (numbered (stem ++ ".tmp") "." number))
    {block image target : Block} {source : Option String} {env mirror entered : Env}
    (mirrors : Mirrors base graph after block image source env mirror) {machine : Machine}
    {calls : Calls} (origin : Option String) {lines : List String} {next : State}
    (ran : block.exec machine calls source ⟨env, lines⟩ = some (next, .jump target.name))
    (targetMember : target ∈ graph.blocks)
    (isEntered : Instr.enter target.phis (some block.name) next.env = some entered) :
    ∃ last, image.exec machine calls origin ⟨mirror, lines⟩ =
        some (⟨last, next.lines⟩, .jump target.name) ∧ Env.Carries base id entered last := by
  have wellFormed := lowerable.wellFormed
  obtain ⟨middle, terminator, supply, keyed, between, reached, body_eq, rekeyed, carried, ranLast,
    runs⟩ := mirrors.exec lowered lowerable origin ran
  obtain ⟨inBlock, checked, ends, _, _⟩ :=
    (wellFormed.blocks block mirrors.member).of_body_eq body_eq
  have leads := FlowGraph.leads_of_mem wellFormed.nodup_names mirrors.member
    ((wellFormed.blocks block mirrors.member).jump_mem ran)
  -- What ends a block writes nothing, so the merges of the next one read what the copies read.
  have env_eq : next.env = between.env := by
    funext var
    refine Instr.exec_unwritten ranLast ?_
    rw [Instr.dest?_of_terminator checked ends]
    exact Option.some_ne_none var ∘ Eq.symm
  rw [env_eq] at isEntered
  obtain ⟨last, ranCopies, carries⟩ := execAll_copies lowerable uncritical temporary machine calls
    targetMember leads supply carried isEntered between.lines
  have reads : ∀ var ∈ terminator.reads, ∀ value, between.env var = some value →
      last var = some value := fun var isRead value held =>
    read_copied lowerable uncritical mirrors.member targetMember leads inBlock checked ends ranLast
      isEntered carries isRead held
  obtain ⟨effect, isNext, _, _, ranEnd⟩ := Instr.exec_of_perform_eq terminator last ranLast
    (fun _ => rfl) (fun values found => Env.read_mono reads found)
  rw [Instr.dest?_of_terminator checked ends] at isNext ranEnd
  refine ⟨last, ?_, carries⟩
  rw [runs last (by rw [Instr.execAll_of_rekeyed rekeyed, ranCopies]), ranEnd, isNext]
  rfl

/-- Copies at the ends of blocks do what the merges of the next block did. -/
theorem refines (lowered : Lowered graph after) (lowerable : Lowerable base graph)
    (uncritical : ∀ source target, ¬graph.Critical source target)
    (temporary : ∀ stem number, ¬base (numbered (stem ++ ".tmp") "." number)) (machine : Machine) :
    graph.Refines machine after := by
  have wellFormed := lowerable.wellFormed
  have formed := (lowered.recoded wellFormed).wellFormed wellFormed
  refine FlowGraph.refines_of_following (fun block image source _ env mirror =>
    Mirrors base graph after block image source env mirror) fun calls => ⟨?_, ?_, ?_⟩
  · intro args env first bound isFirst
    obtain ⟨image, isImage, mirrors⟩ := lowered.mirrors_head formed isFirst env
    exact ⟨env, image, by rw [lowered.params_eq, bound], isImage, mirrors⟩
  · intro block image source origin env mirror lines next value mirrors ran
    exact mirrors.halt lowered lowerable origin ran
  · intro block image source origin env mirror lines next label target entered mirrors ran found
      isEntered
    obtain ⟨targetMember, rfl⟩ := (FlowGraph.find?_eq_some_iff wellFormed.nodup_names).1 found
    obtain ⟨last, ranImage, carries⟩ := mirrors.jump lowered lowerable uncritical temporary origin
      ran targetMember isEntered
    obtain ⟨onward, foundOnward, _⟩ := lowered.exists_image formed targetMember
    refine ⟨1, onward, some image.name, last, fun fuel => ?_, targetMember, foundOnward, ?_⟩
    · exact FlowGraph.runFrom_of_jump ranImage foundOnward fuel
    · intro other isOther
      obtain rfl := Option.some.inj (isEntered.symm.trans isOther)
      exact carries

end Lowered

/-! ## The conversion -/

/-- The way out of single assignment keeps the name and the parameters of a function, leaves a
well-formed flow graph, and no merge. -/
theorem Destructed.spec {graph after : FlowGraph} (destructed : Destructed graph after)
    (wellFormed : graph.WellFormed) (fit : graph.PhisFit) :
    after.name = graph.name ∧ after.params = graph.params ∧ after.WellFormed ∧
      ∀ block ∈ after.blocks, ∀ instr ∈ block.instrs, instr.isPhi = false := by
  obtain ⟨middle, series, _, lowered⟩ := destructed
  obtain ⟨formed, _, name_eq, params_eq⟩ := series.induct (fun other => other.WellFormed ∧
    other.PhisFit ∧ other.name = graph.name ∧ other.params = graph.params)
    (fun split held => ⟨split.wellFormed_after held.1, split.phisFit held.1 held.2.1,
      split.name_eq.trans held.2.2.1, split.params_eq.trans held.2.2.2⟩) ⟨wellFormed, fit, rfl, rfl⟩
  exact ⟨lowered.name_eq.trans name_eq, lowered.params_eq.trans params_eq,
    (lowered.recoded formed).wellFormed formed, lowered.unmerged formed⟩

/-- The way out of single assignment keeps what a flow graph does. -/
theorem Destructed.refines {base : String → Prop} {graph after : FlowGraph}
    (destructed : Destructed graph after) (lowerable : Lowerable base graph)
    (temporary : ∀ stem number, ¬base (numbered (stem ++ ".tmp") "." number)) (machine : Machine) :
    graph.Refines machine after := by
  obtain ⟨middle, series, uncritical, lowered⟩ := destructed
  obtain ⟨lowerableMiddle, refines⟩ := series.induct (fun other => Lowerable base other ∧
    graph.Refines machine other) (fun split held => ⟨held.1.split split,
      held.2.trans (split.refines held.1.wellFormed held.1.fit machine)⟩)
    ⟨lowerable, .refl machine graph⟩
  exact refines.trans (lowered.refines lowerableMiddle uncritical temporary machine)

/-! ## Functions with merges -/

/-- A variable without the mark of a temporary in its name. -/
def Unmarked (var : String) : Prop := ¬".tmp.".toList <:+: var.toList

instance (var : String) : Decidable (Unmarked var) := inferInstanceAs (Decidable ¬_)

/-- Temporaries have the mark. -/
theorem not_unmarked_numbered (stem : String) (number : Nat) :
    ¬Unmarked (numbered (stem ++ ".tmp") "." number) := by
  refine not_not.2 ⟨stem.toList, (toString number).toList, ?_⟩
  simp [numbered]

/-- A branch to two labels gives its block two successors. -/
theorem one_lt_length_successors {block : Block} (wellFormed : block.WellFormed) {branch : Instr}
    (member : branch ∈ block.instrs) (isBranch : branch.op? = some .br)
    (apart : branch.labels.Nodup) : 1 < block.successors.length := by
  obtain ⟨front, terminator, split, plain, ends⟩ := wellFormed.exists_end
  have branchEnds : branch.isTerminator = true := by rw [Instr.isTerminator, isBranch]; rfl
  have checked := wellFormed.checked branch member
  rw [split, List.mem_append, List.mem_singleton] at member
  rcases member with inFront | rfl
  · rw [plain branch inFront] at branchEnds
    cases branchEnds
  · rw [Block.successors_of_terminator (Block.terminator?_of_split split ends) checked ends]
    rcases Instr.terminator_cases checked ends with ⟨_, _, action, _⟩ |
      ⟨operands, _, positive, negative, action, _, labels⟩ | ⟨_, action, _⟩
    · rw [Instr.op?, action] at isBranch
      cases isBranch
    · rw [Instr.labels, action, Action.operands, labels] at apart ⊢
      simp only [List.nodup_cons, List.mem_singleton] at apart
      simp [List.eraseDups_cons, Ne.symm apart.1]
    · rw [Instr.op?, action] at isBranch
      cases isBranch

/-- A flow graph whose merges come first and name each predecessor of their block once, whose
branches lead to two blocks and whose variables are not named like temporaries. -/
structure Mergeable (graph : FlowGraph) : Prop where
  /-- Merges come first. -/
  leading : ∀ block ∈ graph.blocks, ∀ instr ∈ block.body, instr.isPhi = false
  /-- Merges name each predecessor of their block once. -/
  fit : graph.PhisFit
  /-- Branches lead to two blocks. -/
  branches : ∀ block ∈ graph.blocks, ∀ instr ∈ block.instrs, instr.op? = some .br →
    instr.labels.Nodup
  /-- Variables are not named like temporaries. -/
  vars : ∀ block ∈ graph.blocks, ∀ instr ∈ block.instrs,
    (∀ arg ∈ instr.args, Unmarked arg) ∧ ∀ dest ∈ instr.dest?, Unmarked dest

/-- On no edge does the last merge of a variable keep it where another one gives it a value. -/
def Steady (graph : FlowGraph) : Prop := ∀ block ∈ graph.blocks, SteadyMerges block.phis

/-- A flow graph is steady if each of its blocks merges distinct variables. -/
theorem steady_of_nodup {graph : FlowGraph}
    (distinct : ∀ block ∈ graph.blocks, (block.phis.filterMap Instr.dest?).Nodup) : Steady graph :=
  fun block member => steadyMerges_of_nodup (distinct block member)

/-- There are keys left for blocks on edges, copies and labels. -/
def LeavesKeys (graph : FlowGraph) : Prop :=
  graph.nextKey + graph.blocks.length + 4 * graph.mergeLabels.length < keyLimit

/-- A flow graph that leaves single assignment: it has no merge then, and written out it yields what
it yielded before. -/
def Leaves (graph : FlowGraph) : Prop :=
  ∃ after events input output, destruct graph = .ok (after, events) ∧
    (∀ block ∈ after.blocks, ∀ instr ∈ block.instrs, instr.isPhi = false) ∧
    graph.flatten = .ok input ∧ after.flatten = .ok output ∧
    ∀ machine, input.Refines machine output

/-- A flow graph in which merges fit their blocks leaves single assignment, if none of them keeps
what another one overwrites and there are keys left. -/
theorem destruct_preserves {function : Func} {graph : FlowGraph} {log : Log}
    (built : FlowGraph.build function = .ok (graph, log)) (mergeable : Mergeable graph)
    (steady : Steady graph) (room : LeavesKeys graph) : Leaves graph := by
  have wellFormed := (FlowGraph.builtFrom_of_build built).wellFormed mergeable.leading
  have fit := mergeable.fit
  have lowerable : Lowerable Unmarked graph :=
    ⟨wellFormed, fit, fun block member instr inside isBranch => one_lt_length_successors
      (wellFormed.blocks block member) inside isBranch
        (mergeable.branches block member instr inside isBranch), steady, mergeable.vars⟩
  rw [LeavesKeys] at room
  rcases destruct_cases wellFormed fit with ⟨after, events, done, destructed, few⟩ | ⟨_, many⟩
  · obtain ⟨_, _, formed, noMerge⟩ := destructed.spec wellFormed fit
    rcases graph.flatten_cases with ⟨input, isInput⟩ | ⟨_, many⟩
    · rcases after.flatten_cases with ⟨output, isOutput⟩ | ⟨_, many⟩
      · refine ⟨after, events, input, output, done, noMerge, isInput, isOutput, ?_⟩
        intro machine calls args answer yields
        rw [FlowGraph.yields_flatten_iff wellFormed isInput] at yields
        rw [FlowGraph.yields_flatten_iff formed isOutput]
        exact destructed.refines lowerable not_unmarked_numbered machine calls args answer yields
      · omega
    · omega
  · omega

/-- A loop that swaps two variables in every round. -/
def swapLoop : FlowGraph where
  name := "swap"
  params := [⟨"a", .int⟩, ⟨"b", .int⟩, ⟨"again", .bool⟩]
  returnType := some .int
  pos := none
  blocks := [⟨"start", [.jmp "loop"]⟩,
    ⟨"loop", [.phi "x" .int ["a", "y"] ["start", "loop"], .phi "y" .int ["b", "x"] ["start", "loop"],
      .br "again" "loop" "done"]⟩,
    ⟨"done", [.ret (some "x")]⟩]
  nextKey := 1
  nextBlock := 0

/-- The loop that swaps two variables leaves single assignment. -/
theorem leaves_swapLoop : Leaves swapLoop := by
  refine @destruct_preserves ⟨"swap", swapLoop.params, some .int, [.label "start", .jmp "loop",
      .label "loop", .phi "x" .int ["a", "y"] ["start", "loop"],
      .phi "y" .int ["b", "x"] ["start", "loop"], .br "again" "loop" "done", .label "done",
      .ret (some "x")], none⟩ swapLoop [] rfl ⟨by decide, ?_, by decide, by decide⟩ ?_ ?_
  · unfold FlowGraph.PhisFit
    decide
  · exact steady_of_nodup (by decide)
  · unfold LeavesKeys
    decide

/-- Two merges of one variable, of which the second keeps the value that the first overwrites. -/
def keepingMerge : FlowGraph where
  name := "keep"
  params := [⟨"x", .int⟩, ⟨"y", .int⟩]
  returnType := some .int
  pos := none
  blocks := [⟨"a", [.jmp "b"]⟩,
    ⟨"b", [.phi "x" .int ["y"] ["a"], .phi "x" .int ["x"] ["a"], .ret (some "x")]⟩]
  nextKey := 1
  nextBlock := 0

/-- A merge in a function that has the last key. -/
def lastKeyMerge : FlowGraph where
  name := "last"
  params := [⟨"y", .int⟩]
  returnType := some .int
  pos := none
  blocks := [⟨"a", [.jmp "b"]⟩, ⟨"b", [.phi "x" .int ["y"] ["a"], .ret (some "x")]⟩]
  nextKey := 18446744073709551615
  nextBlock := 0

/-- A merge that keeps what another one overwrites loses it, and without keys there is no way out of
single assignment. -/
theorem not_leaves : (∃ function log, FlowGraph.build function = .ok (keepingMerge, log) ∧
      Mergeable keepingMerge ∧ LeavesKeys keepingMerge ∧ ¬Leaves keepingMerge) ∧
    ∃ function log, FlowGraph.build function = .ok (lastKeyMerge, log) ∧
      Mergeable lastKeyMerge ∧ Steady lastKeyMerge ∧ ¬Leaves lastKeyMerge := by
  refine ⟨⟨⟨"keep", keepingMerge.params, some .int, [.label "a", .jmp "b", .label "b",
      .phi "x" .int ["y"] ["a"], .phi "x" .int ["x"] ["a"], .ret (some "x")], none⟩, [], rfl,
      ⟨by decide, ?_, by decide, by decide⟩, ?_, ?_⟩,
    ⟨⟨"last", lastKeyMerge.params, some .int, [(Instr.label "a").withKey 18446744073709551614,
      .jmp "b", .label "b", .phi "x" .int ["y"] ["a"], .ret (some "x")], none⟩, [], rfl,
      ⟨by decide, ?_, by decide, by decide⟩, ?_, ?_⟩⟩
  · unfold FlowGraph.PhisFit
    decide
  · unfold LeavesKeys
    decide
  · rintro ⟨after, events, input, output, done, _, isInput, isOutput, refines⟩
    -- Called with one and two, the function yields one before, and two afterwards.
    obtain ⟨rfl, rfl⟩ := Prod.mk.inj (Except.ok.inj (Eq.trans done.symm rfl))
    obtain rfl := Except.ok.inj (Eq.trans isInput.symm rfl)
    obtain rfl := Except.ok.inj (Eq.trans isOutput.symm rfl)
    have before := refines .withoutFloats (fun _ _ => none) [.int 1, .int 2] ⟨[], some (.int 1)⟩
      ⟨10, rfl⟩
    have after := before.unique (⟨10, rfl⟩ : Func.Yields _ _ _ _ ⟨[], some (.int 2)⟩)
    cases after
  · unfold FlowGraph.PhisFit
    decide
  · exact steady_of_nodup (by decide)
  · rintro ⟨after, events, _, _, done, _⟩
    cases Eq.trans done.symm rfl

end Ssa

end Midend
