import Midend.Proofs.Semantics.Simulation
import Midend.Proofs.Ssa.Kept
import Midend.Proofs.Values.Visits

/-! # Global value numbering

Global numbering of a flow graph in single assignment succeeds, keeps its shape and single
assignment, and the new flow graph does what the old one did (`GlobalNumbering.run_spec`): whenever
control reaches a block, the values of all blocks that dominate it are those that the environment
holds. -/

namespace Midend

namespace GlobalNumbering

open ValueTable (Bound)

section Walked

variable {graph after : FlowGraph} {done : List String} {records : String → Record}
  {block image : Block} {earlier : List String} {kept : List Instr}

/-! ## Shape -/

/-- How the merges of a visited block are numbered. -/
theorem Walked.merged (walked : Walked graph after done records) (member : block ∈ graph.blocks)
    (earlier : List String) :
    Merged block.name (records block.name).inherited
      (block.phis.map (resolve (outs records) earlier))
      (numberedPhis graph records earlier block).1
      (numberedPhis graph records earlier block).2.1 :=
  merged_of_available walked.inSsa member
    (walked.settled _ (walked.reachable block member)).inherited_available earlier

/-- How the body of a visited block is numbered. -/
theorem Walked.numberedBody (walked : Walked graph after done records)
    (member : block ∈ graph.blocks) (earlier : List String) :
    NumberedBody graph block.name block.phis block.body
      (numberedInstrs graph records earlier block).1 (numberedPhis graph records earlier block).2.1
      (numberedInstrs graph records earlier block).2.1 :=
  numberedBody_of_available walked.inSsa (walked.wellFormed.blocks block member) member
    (walked.settled _ (walked.reachable block member)).inherited_available earlier

/-- Global numbering changes neither the names of blocks nor where they lead. -/
theorem Walked.recoded (walked : Walked graph after done records) : graph.Recoded after := by
  refine ⟨walked.name_eq, walked.params_eq,
    forall₂_imp_of_mem walked.images fun block member image isImage => ?_⟩
  obtain ⟨earlier, kept, imaged⟩ := isImage
  have settled := walked.settled _ (walked.reachable block member)
  exact ⟨imaged.fronted.name_eq, imaged.wellFormed walked.inSsa member
    (walked.wellFormed.blocks block member) settled.inherited_available⟩

/-- The merges of a block are kept or replaced, and each writes what it wrote. -/
theorem Walked.dests_perm (walked : Walked graph after done records)
    (member : block ∈ graph.blocks)
    (imaged : Imaged graph records done earlier kept block image) :
    (kept.filterMap Instr.dest? ++
      (replacedPhis graph records earlier block).filterMap Instr.dest?).Perm
      (block.phis.filterMap Instr.dest?) := by
  have all := (walked.merged member earlier).dests_eq
  rw [dests_resolve] at all
  rw [← all, ← dests_resolve (outs records) earlier, ← imaged.kept_eq, replacedPhis,
    ← List.filterMap_append]
  exact (List.filter_append_perm Instr.isPhi _).filterMap _

/-- What kept merges write is not written by what replaces the others. -/
theorem Walked.not_replaced (walked : Walked graph after done records)
    (member : block ∈ graph.blocks)
    (imaged : Imaged graph records done earlier kept block image) {var : String}
    (isKept : var ∈ kept.filterMap Instr.dest?) :
    var ∉ (replacedPhis graph records earlier block).filterMap Instr.dest? := by
  have nodup := walked.inSsa.nodup_defs member
  rw [Block.defs, ← block.phis_append_body, List.filterMap_append] at nodup
  have nodup := (walked.dests_perm member imaged).nodup_iff.2 nodup.of_append_left
  exact fun inside => List.disjoint_of_nodup_append nodup isKept inside

/-- What replaces a merge reads what was known before the block, or what a kept merge writes. -/
theorem Walked.replaced_args (walked : Walked graph after done records)
    (member : block ∈ graph.blocks)
    (imaged : Imaged graph records done earlier kept block image) {instr : Instr}
    (isReplaced : instr ∈ replacedPhis graph records earlier block) {arg : String}
    (isArg : arg ∈ instr.args) :
    (records block.name).inherited.Bound arg ∨ arg ∈ kept.filterMap Instr.dest? := by
  obtain ⟨isImage, notPhi⟩ := List.mem_filter.1 isReplaced
  have merged := walked.merged member earlier
  obtain ⟨original, isOriginal, isSame | ⟨dest, ty, _, ⟨literal, rfl⟩ | ⟨source, isSource, rfl⟩⟩⟩ :=
    exists_of_forall₂_right merged.images isImage
  · obtain ⟨phi, isPhi, rfl⟩ := List.mem_map.1 isOriginal
    rw [isSame, resolve, isPhi_mapIncoming, Block.isPhi_of_mem_phis isPhi] at notPhi
    cases notPhi
  · simp [Instr.args, Action.operands] at isArg
  · obtain rfl : arg = source := by simpa [Instr.args, Action.operands] using isArg
    rcases isSource with ⟨row, isRow, rfl⟩ | isKept
    · exact .inl ((walked.settled _ (walked.reachable block member)).inherited_held row isRow)
    · rw [keptDests, imaged.kept_eq, dests_resolve] at isKept
      exact .inr isKept

/-! ## Single assignment -/

/-- A canonical variable is available at the end of a block if the variable it stands for is. -/
theorem Walked.canonical_available (walked : Walked graph after done records) {name var : String}
    (reachable : graph.Reachable name) (available : Ssa.AvailableAtEnd graph name var) :
    Ssa.AvailableAtEnd graph name (canonical (outs records name) var) := by
  unfold canonical
  cases isCanonical : ((outs records name).numberOf? var).bind (outs records name).canonical? with
  | none => exact available
  | some other =>
    obtain ⟨number, _, found⟩ := Option.bind_eq_some_iff.1 isCanonical
    exact (walked.settled name reachable).out_available other
      ⟨number, (ValueTable.numberOf?_of_canonical? found).1⟩

/-- What a merge takes from a predecessor once some blocks are visited is available there. -/
theorem Walked.taken_available (walked : Walked graph after done records)
    (member : block ∈ graph.blocks) {phi : Instr} (isPhi : phi ∈ block.phis) {label arg : String}
    (incoming : (label, arg) ∈ phi.incoming) (visited : List String) :
    Ssa.AvailableAtEnd graph label (takenFrom (outs records) visited label arg) := by
  have available := walked.inSsa.phi_available block member phi isPhi label arg incoming
  unfold takenFrom
  split
  · refine walked.canonical_available ?_ available
    have isLabel := (List.of_mem_zip incoming).1
    rw [(walked.inSsa.phi_labels block member phi isPhi).mem_iff] at isLabel
    obtain ⟨source, isSource, rfl, _⟩ := FlowGraph.mem_predecessorsOf.1 isLabel
    exact walked.reachable source isSource
  · exact available

/-- Global numbering keeps single assignment. -/
theorem Walked.inSsa_after (walked : Walked graph after done records) : Ssa.InSsa after := by
  refine walked.inSsa.of_kept walked.recoded
    (forall₂_imp_of_mem walked.images fun block member image isImage => ?_)
  obtain ⟨earlier, kept, imaged⟩ := isImage
  obtain ⟨phis_eq, body_eq⟩ := imaged.fronted.parts
  have settled := walked.settled _ (walked.reachable block member)
  have numbered := walked.numberedBody member earlier
  have perm := walked.dests_perm member imaged
  have subset : ∀ var ∈ kept.filterMap Instr.dest?, var ∈ block.phis.filterMap Instr.dest? :=
    fun var inside => perm.subset (List.mem_append_left _ inside)
  refine ⟨?_, fun phi isPhi => ?_, fun before instr rest split notPhi arg isArg => ?_⟩
  · have same : image.defs.Perm block.defs := by
      rw [Block.defs, Block.defs, ← image.phis_append_body, ← block.phis_append_body, phis_eq,
        body_eq, List.filterMap_append, List.filterMap_append, List.filterMap_append, dests_resolve,
        numbered.dests_eq, ← List.append_assoc]
      exact perm.append_right _
    exact same.subperm
  · rw [phis_eq] at isPhi
    obtain ⟨original, isKept, rfl⟩ := List.mem_map.1 isPhi
    have isOriginal := imaged.fronted.sublist.subset isKept
    have merges := Block.isPhi_of_mem_phis isOriginal
    refine ⟨original, isOriginal, labels_mapIncoming, length_mapIncoming merges
      (walked.inSsa.phi_args block member original isOriginal), fun label arg incoming => ?_⟩
    rw [resolve, incoming_mapIncoming merges] at incoming
    obtain ⟨⟨_, taken⟩, inside, same⟩ := List.mem_map.1 incoming
    obtain ⟨rfl, rfl⟩ := Prod.mk.inj same
    exact walked.taken_available member isOriginal inside done
  · obtain ⟨middle, rfl, body_split⟩ := Block.exists_body_split split notPhi
    rw [phis_eq, List.filterMap_append, dests_resolve]
    rw [body_eq, List.append_eq_append_iff] at body_split
    rcases body_split with ⟨front, rfl, body_split⟩ | ⟨front, isReplaced, body_split⟩
    · -- The instruction is in the body.
      refine ⟨block.phis ++ front, numbered.args front instr rest body_split arg isArg,
        fun inside _ => ?_⟩
      rw [List.filterMap_append, List.mem_append] at inside
      rw [List.filterMap_append, ← List.append_assoc, List.mem_append]
      exact inside.imp_left fun inPhis => perm.symm.subset inPhis
    · cases front with
      | nil =>
        rw [List.nil_append] at body_split
        refine ⟨block.phis ++ [], numbered.args [] instr rest body_split.symm arg isArg,
          fun inside _ => ?_⟩
        rw [List.append_nil] at inside isReplaced
        rw [← isReplaced]
        exact perm.symm.subset inside
      | cons first front =>
        obtain ⟨rfl, _⟩ := List.cons.inj body_split
        have isReplaced : instr ∈ replacedPhis graph records earlier block := by
          rw [isReplaced]
          simp
        rcases walked.replaced_args member imaged isReplaced isArg with isBound | isKept
        · exact ⟨[], settled.inherited_available arg isBound, by simp⟩
        · refine ⟨block.phis, .inr (.inl (subset arg isKept)), fun _ _ => ?_⟩
          exact List.mem_append_left _ isKept

end Walked

/-! ## Runs -/

section Runs

variable {graph after : FlowGraph} {done : List String} {records : String → Record}
  {block image : Block} {earlier : List String} {kept : List Instr} {floats : FloatOps}
  {env entered : Env} {source : String}

/-- An environment on arrival at a block holds the values of all blocks that dominate the one control
comes from, or those of the parameters. -/
def Arrives (graph : FlowGraph) (records : String → Record) (floats : FloatOps) (block : Block)
    (env : Env) : Option String → Prop
  | none => block.name = graph.entryName ∧ ∃ val, (startTable graph).Sound ⟨floats, false⟩ val env
  | some source => graph.Leads source block.name ∧ graph.Reachable source ∧
    ∀ upper, graph.Dominates upper source →
      ∃ val, (outs records upper).Sound ⟨floats, false⟩ val env

/-- The values that a block starts with are held on arrival. -/
theorem Walked.sound_inherited (walked : Walked graph after done records)
    (member : block ∈ graph.blocks) {source : Option String}
    (arrives : Arrives graph records floats block env source) :
    ∃ val, (records block.name).inherited.Sound ⟨floats, false⟩ val env := by
  cases source with
  | none =>
    obtain ⟨isEntry, sound⟩ := arrives
    rwa [isEntry, walked.inherited_entry]
  | some source =>
    obtain ⟨leads, reachable, sound⟩ := arrives
    obtain ⟨upper, immediate⟩ := (walked.reachable block member).exists_immediate
      (walked.wellFormed.ne_entry_of_leads leads)
    rw [walked.inherited_eq upper block.name immediate]
    exact sound upper (immediate.dominates_source reachable leads)

/-- A canonical variable holds the value of the variable that it stands for. -/
theorem eq_canonical {table : ValueTable} {val : Nat → Option Value}
    (sound : table.Sound ⟨floats, false⟩ val env) (var : String) :
    env (canonical table var) = env var := by
  unfold canonical
  cases isCanonical : (table.numberOf? var).bind table.canonical? with
  | none => rfl
  | some other =>
    obtain ⟨number, isNumber, found⟩ := Option.bind_eq_some_iff.1 isCanonical
    rw [Option.getD_some, (sound.var var number isNumber).2,
      (sound.var other number (ValueTable.numberOf?_of_canonical? found).1).2]

/-- Merges take the same values once some blocks are visited. -/
theorem Arrives.eq_taken (arrives : Arrives graph records floats block env (some source))
    (visited : List String) (var : String) :
    env (takenFrom (outs records) visited source var) = env var := by
  obtain ⟨_, reachable, sound⟩ := arrives
  unfold takenFrom
  split
  · obtain ⟨val, sound⟩ := sound source (.refl reachable)
    exact eq_canonical sound var
  · rfl

/-- What the merges of a block write has no number before it, and is written once. -/
theorem Walked.phis_fresh (walked : Walked graph after done records)
    (member : block ∈ graph.blocks) : (block.phis.filterMap Instr.dest?).Nodup ∧
      ∀ dest ∈ block.phis.filterMap Instr.dest?, dest ∈ block.defs ∧
        ¬(records block.name).inherited.Bound dest := by
  have settled := walked.settled _ (walked.reachable block member)
  have nodup := walked.inSsa.nodup_defs member
  rw [Block.defs, ← block.phis_append_body, List.filterMap_append] at nodup
  refine ⟨nodup.of_append_left, fun dest isDest => ?_⟩
  have inDefs : dest ∈ block.defs := by
    rw [Block.defs, ← block.phis_append_body, List.filterMap_append]
    exact List.mem_append_left _ isDest
  exact ⟨inDefs, not_bound_of_phi walked.inSsa member settled.inherited_available inDefs⟩

/-- What the numbers of a block's merges stood for when control left the block it comes from: they
are old values of the block itself if it dominates that one. -/
theorem Walked.exists_old (walked : Walked graph after done records)
    (member : block ∈ graph.blocks)
    (imaged : Imaged graph records done earlier kept block image)
    (arrives : Arrives graph records floats block env (some source)) {val : Nat → Option Value}
    (sound : (records block.name).inherited.Sound ⟨floats, false⟩ val env) :
    ∃ old : Nat → Option Value, ∀ var number,
      (numberedPhis graph records earlier block).2.1.numberOf? var = some number →
      (var ∈ block.phis.filterMap Instr.dest? → graph.Dominates block.name source) →
        env var = old number := by
  by_cases dominates : graph.Dominates block.name source
  · obtain ⟨old, held⟩ := arrives.2.2 block.name dominates
    refine ⟨old, fun var number found _ => (held.var var number ?_).2⟩
    rw [outs, imaged.out_eq]
    exact (walked.numberedBody member earlier).kept var number found
  · refine ⟨val, fun var number found isWritten => (sound.var var number ?_).2⟩
    refine (walked.merged member earlier).extended.before found ?_
    rw [dests_resolve]
    exact fun inside => dominates (isWritten inside)

/-- What the merges of a block select once some blocks are visited. -/
theorem Walked.selects (walked : Walked graph after done records)
    (member : block ∈ graph.blocks) (earlier : List String)
    (arrives : Arrives graph records floats block env (some source))
    (isEntered : Instr.enter block.phis (some source) env = some entered)
    {val old : Nat → Option Value}
    (sound : (records block.name).inherited.Sound ⟨floats, false⟩ val env)
    (recalled : ∀ var number,
      (numberedPhis graph records earlier block).2.1.numberOf? var = some number →
      (var ∈ block.phis.filterMap Instr.dest? → graph.Dominates block.name source) →
        env var = old number)
    {phi : Instr} (isPhi : phi ∈ block.phis) :
    Selects source env entered old (records block.name).inherited
      (numberedPhis graph records earlier block).2.1 val (resolve (outs records) earlier phi) := by
  obtain ⟨nodup, fresh⟩ := walked.phis_fresh member
  have merges := Block.isPhi_of_mem_phis isPhi
  have perm := walked.inSsa.phi_labels block member phi isPhi
  obtain ⟨dest, arg, value, isDest, isArg, isValue, enters⟩ :=
    Instr.exists_selected nodup isEntered isPhi
  -- Only blocks that this one dominates pass on what its merges write.
  have before : ∀ label taken, (label, taken) ∈ phi.incoming →
      takenFrom (outs records) earlier label taken ∈ block.phis.filterMap Instr.dest? →
        graph.Dominates block.name label := fun label taken incoming isWritten =>
    walked.inSsa.dominates_of_available member (fresh _ isWritten).1
      (walked.taken_available member isPhi incoming earlier)
  have inIncoming : ∀ label taken, (label, taken) ∈ phi.incoming →
      (label, takenFrom (outs records) earlier label taken) ∈
        (resolve (outs records) earlier phi).incoming := by
    intro label taken incoming
    rw [resolve, incoming_mapIncoming merges]
    exact List.mem_map.2 ⟨_, incoming, rfl⟩
  have fromSource := Instr.mem_of_lookup isArg
  refine ⟨⟨dest, takenFrom (outs records) earlier source arg, value,
    dest?_mapIncoming.trans isDest, inIncoming source arg fromSource,
    (arrives.eq_taken earlier arg).trans isValue, enters, fun number found => ?_⟩, ?_, ?_⟩
  · exact recalled _ number found (before source arg fromSource)
  · rw [resolve, labels_mapIncoming, perm.nodup_iff]
    exact FlowGraph.nodup_predecessorsOf walked.wellFormed.nodup_names _
  · -- The merge takes a value from a block that this one does not dominate.
    obtain ⟨label, _, leads, notDominates⟩ := Dominates.exists_source
      (walked.reachable block member) (walked.wellFormed.ne_entry_of_leads arrives.1)
    have isLabel : label ∈ phi.labels := by
      rw [perm.mem_iff]
      exact (FlowGraph.mem_predecessorsOf_iff_leads walked.wellFormed.nodup_names).2 leads
    obtain ⟨taken, incoming⟩ : ∃ taken, (label, taken) ∈ phi.incoming := by
      have length := walked.inSsa.phi_args block member phi isPhi
      rw [← List.map_fst_zip (Nat.le_of_eq length.symm)] at isLabel
      obtain ⟨⟨_, taken⟩, inside, rfl⟩ := List.mem_map.1 isLabel
      exact ⟨taken, inside⟩
    refine ⟨_, (List.of_mem_zip (inIncoming label taken incoming)).2, fun number found => ?_⟩
    have unwritten : takenFrom (outs records) earlier label taken ∉
        block.phis.filterMap Instr.dest? := fun isWritten =>
      notDominates (before label taken incoming isWritten)
    obtain ⟨below, held⟩ := sound.var _ number
      ((walked.merged member earlier).extended.before found (by rwa [dests_resolve]))
    exact ⟨below, held.symm.trans (recalled _ number found fun isWritten =>
      absurd isWritten unwritten)⟩

/-- The merges of a block are numbered such that their variables hold the values of their numbers. -/
theorem Walked.sound_phis (walked : Walked graph after done records)
    (member : block ∈ graph.blocks)
    (imaged : Imaged graph records done earlier kept block image) {source : Option String}
    (arrives : Arrives graph records floats block env source)
    (isEntered : Instr.enter block.phis source env = some entered) :
    ∃ val, (numberedPhis graph records earlier block).2.1.Sound ⟨floats, false⟩ val entered ∧
      ∀ instr ∈ (numberedPhis graph records earlier block).1, instr.isPhi = false →
        Right entered instr := by
  obtain ⟨val, sound⟩ := walked.sound_inherited member arrives
  cases source with
  | none =>
    -- Nothing is merged at the start.
    unfold Instr.enter at isEntered
    split at isEntered
    · rename_i empty
      obtain rfl := Option.some.inj isEntered
      rw [numberedPhis, List.isEmpty_iff.1 empty]
      exact ⟨val, sound, by simp [numberAll]⟩
    · cases isEntered
  | some source =>
    obtain ⟨nodup, fresh⟩ := walked.phis_fresh member
    obtain ⟨old, recalled⟩ := walked.exists_old member imaged arrives sound
    have settled := walked.settled _ (walked.reachable block member)
    have soundEntered : (records block.name).inherited.Sound ⟨floats, false⟩ val entered := by
      refine sound.congr fun var number found => Instr.enter_unwritten isEntered fun inside => ?_
      exact (fresh var inside).2 ⟨number, found⟩
    have takes : Takes block.name source (records block.name).inherited val old := by
      intro incoming number found
      rw [settled.inherited_phis incoming] at found
      cases found
    have selects : ∀ phi ∈ block.phis.map (resolve (outs records) earlier),
        Selects source env entered old (records block.name).inherited
          (numberedPhis graph records earlier block).2.1 val phi := by
      intro phi inside
      obtain ⟨original, isOriginal, rfl⟩ := List.mem_map.1 inside
      exact walked.selects member earlier arrives isEntered sound recalled isOriginal
    refine sound_numberPhis (placeOf graph block) (fun phi inside => ?_) (by rwa [dests_resolve])
      (fun dest inside => ?_) soundEntered takes selects
    · obtain ⟨original, isOriginal, rfl⟩ := List.mem_map.1 inside
      exact isPhi_mapIncoming.trans (Block.isPhi_of_mem_phis isOriginal)
    · rw [dests_resolve] at inside
      exact (fresh dest inside).2

/-- The kept merges of a block are entered like all of them: what stands in the places of the others
is still to be written. -/
theorem Walked.enter_kept (walked : Walked graph after done records)
    (member : block ∈ graph.blocks)
    (imaged : Imaged graph records done earlier kept block image) {source : Option String}
    (arrives : Arrives graph records floats block env source)
    (isEntered : Instr.enter block.phis source env = some entered) :
    ∃ start, Instr.enter image.phis source env = some start ∧
      ∀ var, var ∉ (replacedPhis graph records earlier block).filterMap Instr.dest? →
        start var = entered var := by
  obtain ⟨phis_eq, _⟩ := imaged.fronted.parts
  cases source with
  | none =>
    -- A block that starts the function merges nothing.
    unfold Instr.enter at isEntered
    split at isEntered
    · rename_i empty
      obtain rfl := Option.some.inj isEntered
      have noneKept : kept = [] :=
        List.sublist_nil.1 (List.isEmpty_iff.1 empty ▸ imaged.fronted.sublist)
      exact ⟨env, by rw [phis_eq, noneKept]; rfl, fun _ _ => rfl⟩
    · cases isEntered
  | some source =>
    obtain ⟨nodup, _⟩ := walked.phis_fresh member
    have nodupKept : (image.phis.filterMap Instr.dest?).Nodup := by
      rw [phis_eq, dests_resolve]
      exact nodup.sublist (imaged.fronted.sublist.filterMap _)
    have lookup : ∀ phi ∈ kept,
        (resolve (outs records) done phi).incoming.lookup source =
          (phi.incoming.lookup source).map (takenFrom (outs records) done source) :=
      fun phi isKept => lookup_mapIncoming
        (Block.isPhi_of_mem_phis (imaged.fronted.sublist.subset isKept)) source
    obtain ⟨writes, selected⟩ : ∃ writes,
        image.phis.mapM (Instr.select source env) = some writes := by
      refine exists_mapM fun phi isPhi => ?_
      rw [phis_eq] at isPhi
      obtain ⟨original, isKept, rfl⟩ := List.mem_map.1 isPhi
      obtain ⟨dest, arg, value, isDest, isArg, isValue, _⟩ :=
        Instr.exists_selected nodup isEntered (imaged.fronted.sublist.subset isKept)
      refine ⟨(dest, value), Instr.select_eq_some_iff.2
        ⟨takenFrom (outs records) done source arg, dest?_mapIncoming.trans isDest, ?_, ?_⟩⟩
      · rw [lookup original isKept, isArg, Option.map_some]
      · rw [arrives.eq_taken done arg, isValue]
    have isStart : Instr.enter image.phis (some source) env = some (env.assign writes) := by
      rw [Instr.enter_some, selected, Option.map_some]
    refine ⟨_, isStart, fun var notReplaced => ?_⟩
    by_cases isKept : var ∈ kept.filterMap Instr.dest?
    · obtain ⟨phi, inside, isVar⟩ := List.mem_filterMap.1 isKept
      obtain ⟨dest, arg, value, isDest, isArg, isValue, enters⟩ :=
        Instr.exists_selected nodup isEntered (imaged.fronted.sublist.subset inside)
      have inImage : resolve (outs records) done phi ∈ image.phis :=
        phis_eq ▸ List.mem_map_of_mem inside
      obtain ⟨other, taken, selected, isOther, isTaken, held, starts⟩ :=
        Instr.exists_selected nodupKept isStart inImage
      obtain rfl : dest = var := Option.some.inj (isDest.symm.trans isVar)
      obtain rfl : other = dest :=
        Option.some.inj (isOther.symm.trans (dest?_mapIncoming.trans isDest))
      rw [lookup phi inside, isArg, Option.map_some] at isTaken
      obtain rfl := Option.some.inj isTaken
      rw [starts, enters, ← isValue, ← held, arrives.eq_taken done arg]
    · -- The variable is written by no merge at all.
      have unwritten : var ∉ block.phis.filterMap Instr.dest? := fun inside =>
        (List.mem_append.1 ((walked.dests_perm member imaged).symm.subset inside)).elim isKept
          notReplaced
      rw [Instr.enter_unwritten isEntered unwritten, Instr.enter_unwritten isStart]
      rwa [phis_eq, dests_resolve]

/-- What holds of the values of blocks above stays so while a block runs. -/
theorem Walked.sound_above (walked : Walked graph after done records)
    (member : block ∈ graph.blocks) {calls : Calls} {source : Option String}
    {lines : List String} {next : State} {control : Control} {upper : String}
    (strict : StrictlyDominates graph.Leads graph.entryName upper block.name)
    (ran : block.exec ⟨floats, false⟩ calls source ⟨env, lines⟩ = some (next, control))
    {val : Nat → Option Value} (sound : (outs records upper).Sound ⟨floats, false⟩ val env) :
    (outs records upper).Sound ⟨floats, false⟩ val next.env := by
  refine sound.congr fun var number found => Block.exec_unwritten ran fun written => ?_
  have available := (walked.settled upper strict.2.reaches_upper).out_available var ⟨number, found⟩
  exact strict.1 (strict.2.antisymm (walked.inSsa.dominates_of_available member written available))

/-- The new flow graph does what the old one did. -/
theorem Walked.refines (walked : Walked graph after done records) (floats : FloatOps) :
    graph.Refines ⟨floats, false⟩ after := by
  refine FlowGraph.refines_of_blockwise walked.wellFormed walked.params_eq walked.images ?_
    (fun block source env mirror => mirror = env ∧ Arrives graph records floats block env source)
    ?_ ?_
  · rintro block image ⟨_, _, imaged⟩
    exact imaged.fronted.name_eq
  · intro args env first _ isEntry
    exact ⟨rfl, isEntry, (ValueTable.Sound.empty ⟨floats, false⟩ (fun _ => none) env).foldl_define
      graph.paramNames⟩
  · rintro calls block image source env _ lines next control member ⟨earlier, kept, imaged⟩
      ⟨rfl, arrives⟩ ran
    have isWellFormed := walked.wellFormed.blocks block member
    have reachable := walked.reachable block member
    obtain ⟨entered, isEntered, ranBody⟩ := Block.exec_eq_some_iff.1 ran
    obtain ⟨start, isStart, agree⟩ := walked.enter_kept member imaged arrives isEntered
    obtain ⟨val, soundPhis, rights⟩ := walked.sound_phis member imaged arrives isEntered
    obtain ⟨valOut, soundOut, ranImage⟩ :=
      numberAll_sound (placeOf graph block) isWellFormed.plain_body isWellFormed.straight_body
        soundPhis ranBody
    -- What stands in the places of merges completes the environment, then the body runs.
    have completes : Instr.execAll ⟨floats, false⟩ calls (replacedPhis graph records earlier block)
        ⟨start, lines⟩ = some (⟨entered, lines⟩, .next) := by
      refine execAll_of_right calls (fun instr inside => ?_) (fun instr inside arg isArg => ?_)
        agree lines
      · obtain ⟨isImage, notPhi⟩ := List.mem_filter.1 inside
        exact rights instr isImage (by simpa using notPhi)
      · rcases walked.replaced_args member imaged inside isArg with isBound | isKept
        · intro isDest
          refine ((walked.phis_fresh member).2 arg ?_).2 isBound
          exact (walked.dests_perm member imaged).subset (List.mem_append_right _ isDest)
        · exact walked.not_replaced member imaged isKept
    refine ⟨next.env, Block.exec_eq_some_iff.2 ⟨start, isStart, ?_⟩, ?_⟩
    · rw [imaged.fronted.parts.2, Instr.execAll_append, completes, Option.bind_some, if_pos rfl]
      exact ranImage
    · refine fun target _ leads => ⟨rfl, leads, reachable, fun upper dominates => ?_⟩
      by_cases isBlock : upper = block.name
      · subst isBlock
        exact ⟨valOut, by rw [outs, imaged.out_eq]; exact soundOut⟩
      · cases source with
        | none =>
          -- Nothing strictly dominates the entry.
          rw [arrives.1] at dominates isBlock
          exact absurd (dominates.antisymm (.of_start dominates.reaches_upper)) isBlock
        | some source =>
          obtain ⟨val, sound⟩ := arrives.2.2 upper
            (Dominates.of_edge ⟨isBlock, dominates⟩ arrives.2.1 arrives.1)
          exact ⟨val, walked.sound_above member ⟨isBlock, dominates⟩ ran sound⟩

end Runs

/-! ## The pass -/

variable {graph : FlowGraph} (wellFormed : graph.WellFormed) (inSsa : Ssa.InSsa graph)
  (reachable : ∀ block ∈ graph.blocks, graph.Reachable block.name)

include wellFormed inSsa reachable

/-- Global numbering of a flow graph in single assignment succeeds, keeps names and edges, single
assignment, and what the flow graph does. -/
theorem run_spec : ∃ after log, run graph = .ok (after, log) ∧ graph.Recoded after ∧
    Ssa.InSsa after ∧ ∀ floats, graph.Refines ⟨floats, false⟩ after := by
  obtain ⟨after, log, done, records, ran, walked⟩ := exists_walked wellFormed inSsa reachable
  exact ⟨after, log, ran, walked.recoded, walked.inSsa_after, walked.refines⟩

end GlobalNumbering

end Midend
