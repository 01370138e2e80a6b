import Midend.Proofs.Dataflow.Liveness
import Midend.Proofs.FlowGraph.Build
import Midend.Proofs.FlowGraph.Flatten
import Midend.Proofs.FlowGraph.Recast
import Midend.Proofs.Registers.Coalesce
import Midend.Proofs.Registers.Coloring
import Midend.Registers.Allocation

/-! # Running on registers

A function whose variables were given registers runs on registers as it ran on variables
(`Allocation.ofFunc_runs`). Coalescing and coloring are followed at once: every variable of the old
code has a new name, first that of the variable it was merged into and then that of its register, and
variables of which one is written while the other is wanted have different new names. So the registers
hold the values of all wanted variables, at every point of every run. -/

namespace Midend

/-- The register of a variable, or its own name if it has none. -/
def Coloring.registerOf (colors : Coloring) (var : String) : String := colors.getD var var

namespace Func

/-- The variables of a function. -/
def vars (function : Func) : List String :=
  function.params.map Param.name ++
    function.instrs.flatMap fun instr => instr.dest?.toList ++ instr.args

/-- A function on registers. -/
def applyColoring (colors : Coloring) (function : Func) : Func :=
  { function with
    params := function.params.map fun param => { param with name := colors.registerOf param.name }
    instrs := function.instrs.map (Instr.mapVars colors.registerOf) }

end Func

namespace Coalescing

/-! ## Instructions under new names -/

/-- Instructions under new names, without the copies that the names make superfluous, and then under
newer names. -/
def renewed (first second : String → String) (instrs : List Instr) : List Instr :=
  ((instrs.map (Instr.mapVars first)).filter fun instr => !isSelfCopy instr).map
    (Instr.mapVars second)

variable {first second : String → String} {out : String → Prop} {env mirror : Env}
  {machine : Machine} {calls : Calls}

/-- Instructions are renewed one by one. -/
theorem renewed_cons (first second : String → String) (instr : Instr) (rest : List Instr) :
    renewed first second (instr :: rest) =
      if isSelfCopy (instr.mapVars first) then renewed first second rest
      else instr.mapVars (second ∘ first) :: renewed first second rest := by
  unfold renewed
  rw [List.map_cons, List.filter_cons]
  cases isSelfCopy (instr.mapVars first) with
  | true => rfl
  | false =>
    simp only [Bool.not_false, if_true, Bool.false_eq_true, if_false, List.map_cons]
    rw [Instr.mapVars_mapVars]

/-- Instructions are renewed list by list. -/
theorem renewed_append (first second : String → String) (left right : List Instr) :
    renewed first second (left ++ right) =
      renewed first second left ++ renewed first second right := by
  unfold renewed
  rw [List.map_append, List.filter_append, List.map_append]

/-- Renewed instructions are instructions under new names. -/
theorem exists_of_mem_renewed {instrs : List Instr} {image : Instr}
    (member : image ∈ renewed first second instrs) :
    ∃ instr ∈ instrs, image = instr.mapVars (second ∘ first) := by
  obtain ⟨middle, kept, rfl⟩ := List.mem_map.1 member
  obtain ⟨instr, inside, rfl⟩ := List.mem_map.1 (List.mem_filter.1 kept).1
  exact ⟨instr, inside, Instr.mapVars_mapVars ..⟩

/-- Renewed instructions are no merges if the old ones are not. -/
theorem unmerged_renewed {instrs : List Instr} (unmerged : ∀ instr ∈ instrs, instr.isPhi = false)
    (first second : String → String) : ∀ image ∈ renewed first second instrs, image.isPhi = false := by
  intro image member
  obtain ⟨instr, inside, rfl⟩ := exists_of_mem_renewed member
  rw [Instr.isPhi_mapVars]
  exact unmerged instr inside

/-- What ends a block is no copy. -/
theorem renewed_terminator {terminator : Instr} (ends : terminator.isTerminator = true) :
    renewed first second [terminator] = [terminator.mapVars (second ∘ first)] := by
  rw [renewed_cons, if_neg]
  · rfl
  · intro isCopy
    obtain ⟨var, sides⟩ := isSelfCopy_iff_copySides?.1 isCopy
    obtain ⟨ty, operands, action, _⟩ := copySides?_eq_some sides
    rw [← Instr.isTerminator_mapVars first, Instr.isTerminator, Instr.op?, action] at ends
    cases ends

/-- New names that keep a variable that is written apart from those that are wanted behind. -/
def Apart (change : String → String) (out : String → Prop) (instrs : List Instr) : Prop :=
  ∀ before instr after, instrs = before ++ instr :: after → ∀ dest, instr.dest? = some dest →
    ∀ var, Instr.Wanted out after var → var ≠ dest → change var ≠ change dest

/-- New names that suit instructions suit those behind the first. -/
theorem Apart.tail {change : String → String} {instr : Instr} {rest : List Instr}
    (apart : Apart change out (instr :: rest)) : Apart change out rest :=
  fun before other after split => apart (instr :: before) other after (by rw [split]; rfl)

/-- A copy that new names make superfluous need not be made: its source has the value already. -/
theorem carries_of_selfCopy {instr : Instr} {rest : List Instr} {lines : List String}
    {next : State} {control : Control} {change : String → String}
    (carries : Env.Carries (Instr.Wanted out (instr :: rest)) change env mirror)
    {dest source : String} (sides : copySides? instr = some (dest, source))
    (same : change dest = change source)
    (ran : instr.exec machine calls ⟨env, lines⟩ = some (next, control)) :
    control = .next ∧ next.lines = lines ∧
      Env.Carries (Instr.Wanted out rest) change next.env mirror := by
  obtain ⟨ty, operands, action, args⟩ := copySides?_eq_some sides
  obtain ⟨values, effect, read, performed, rfl, rfl⟩ := Instr.exec_eq_some_iff.1 ran
  have isDest : instr.dest? = some dest := by rw [Instr.dest?, action]; rfl
  have isArg : source ∈ instr.args := by
    rw [Instr.args, action, Action.operands, args]
    exact List.mem_singleton_self _
  have reads : instr.reads = [source] := by
    rw [Instr.reads, action, Action.reads, args]
    rfl
  -- The copy has the value of its source.
  rw [reads, Env.read_eq_some_iff, List.forall₂_cons_left_iff] at read
  obtain ⟨value, others, isValue, _, rfl⟩ := read
  rw [action] at performed
  obtain rfl : ({ value := some value } : Effect) = effect := Option.some.inj performed
  refine ⟨rfl, List.append_nil _, fun var isWanted held isHeld => ?_⟩
  rw [isDest] at isHeld
  change (env.set dest value) var = some held at isHeld
  by_cases isVar : var = dest
  · subst isVar
    rw [Env.set_self] at isHeld
    rw [same]
    exact carries source (.inl isArg) held (isValue.trans isHeld)
  · rw [Env.set_of_ne _ _ isVar] at isHeld
    refine carries var (.inr ⟨?_, isWanted⟩) held isHeld
    rw [isDest]
    exact fun isSame => isVar (Option.some.inj isSame).symm

/-- Renewed instructions run as the old ones do. -/
theorem execAll_renewed {instrs : List Instr} {lines : List String} {next : State}
    (carries : Env.Carries (Instr.Wanted out instrs) (second ∘ first) env mirror)
    (apart : Apart (second ∘ first) out instrs)
    (ran : Instr.execAll machine calls instrs ⟨env, lines⟩ = some (next, .next)) :
    ∃ last, Instr.execAll machine calls (renewed first second instrs) ⟨mirror, lines⟩ =
        some (⟨last, next.lines⟩, .next) ∧ Env.Carries out (second ∘ first) next.env last := by
  induction instrs generalizing env mirror lines with
  | nil =>
    obtain ⟨rfl, -⟩ := Prod.mk.inj (Option.some.inj ran)
    exact ⟨mirror, rfl, carries⟩
  | cons instr rest restIH =>
    obtain ⟨⟨between, printed⟩, one, ranRest⟩ := Instr.execAll_cons_next_iff.1 ran
    rw [renewed_cons]
    by_cases isCopy : isSelfCopy (instr.mapVars first) = true
    · rw [if_pos isCopy]
      -- The copy is gone, and the environment has what it would have written.
      obtain ⟨var, sides⟩ := isSelfCopy_iff_copySides?.1 isCopy
      rw [copySides?_mapVars, Option.map_eq_some_iff] at sides
      obtain ⟨⟨dest, source⟩, sides, same⟩ := sides
      obtain ⟨isLeft, isRight⟩ := Prod.mk.inj same
      have merged : (second ∘ first) dest = (second ∘ first) source := by
        show second (first dest) = second (first source)
        rw [isLeft, isRight]
      obtain ⟨-, rfl, carried⟩ := carries_of_selfCopy carries sides merged one
      exact restIH carried apart.tail ranRest
    · rw [if_neg isCopy]
      obtain ⟨middle, mirrored, carried⟩ := carries.exec
        (fun arg isArg => .inl isArg) one
        (fun var (isWanted : Instr.Wanted out rest var) unwritten => .inr ⟨unwritten, isWanted⟩)
        (apart [] instr rest rfl)
      obtain ⟨last, others, carriedLast⟩ := restIH carried apart.tail ranRest
      exact ⟨last, Instr.execAll_cons_next_iff.2 ⟨⟨middle, printed⟩, mirrored, others⟩, carriedLast⟩

/-! ## Blocks under new names -/

/-- A block under new names, without superfluous copies. -/
def renewedBlock (first second : String → String) (block : Block) : Block :=
  { block with instrs := renewed first second block.instrs }

/-- A renewed block without merges is well-formed and leads to where the old one leads. -/
theorem renewedBlock_spec {block : Block} (wellFormed : block.WellFormed)
    (unmerged : ∀ instr ∈ block.instrs, instr.isPhi = false) (first second : String → String) :
    (renewedBlock first second block).successors = block.successors ∧
      (renewedBlock first second block).WellFormed := by
  obtain ⟨front, terminator, split, goesOn, ends⟩ := wellFormed.exists_end
  have member : terminator ∈ block.instrs := by rw [split]; simp
  have instrs_eq : (renewedBlock first second block).instrs =
      renewed first second front ++ [terminator.mapVars (second ∘ first)] := by
    show renewed first second block.instrs = _
    rw [split, renewed_append, renewed_terminator ends]
  have endsToo : (terminator.mapVars (second ∘ first)).isTerminator = true := by
    rw [Instr.isTerminator_mapVars, ends]
  have checked := wellFormed.checked terminator member
  refine ⟨?_, ⟨_, _, instrs_eq, fun image inFront => ?_, endsToo⟩, fun image inside => ?_,
    fun image inside => ?_, fun image inBody => ?_⟩
  · rw [Block.successors_of_terminator (Block.terminator?_of_split instrs_eq endsToo)
      (checked.mapVars _) endsToo, Instr.labels_mapVars,
      Block.successors_of_terminator (Block.terminator?_of_split split ends) checked ends]
  · obtain ⟨instr, isInstr, rfl⟩ := exists_of_mem_renewed inFront
    rw [Instr.isTerminator_mapVars]
    exact goesOn instr isInstr
  · obtain ⟨instr, isInstr, rfl⟩ := exists_of_mem_renewed inside
    exact (wellFormed.checked instr isInstr).mapVars _
  · obtain ⟨instr, isInstr, rfl⟩ := exists_of_mem_renewed inside
    rw [Instr.isLabel_mapVars]
    exact wellFormed.unlabelled instr isInstr
  · exact unmerged_renewed unmerged first second image (Block.mem_of_mem_body inBody)

/-- A renewed block without merges runs as the old one does. -/
theorem exec_renewedBlock {block : Block} (wellFormed : block.WellFormed)
    (unmerged : ∀ instr ∈ block.instrs, instr.isPhi = false)
    (carries : Env.Carries (Instr.Wanted out block.instrs) (second ∘ first) env mirror)
    (apart : Apart (second ∘ first) out block.instrs) {source : Option String}
    {lines : List String} {next : State} {control : Control}
    (ran : block.exec machine calls source ⟨env, lines⟩ = some (next, control)) :
    ∃ last, (renewedBlock first second block).exec machine calls source ⟨mirror, lines⟩ =
        some (⟨last, next.lines⟩, control) ∧ Env.Carries out (second ∘ first) next.env last := by
  have noMerge : ∀ image ∈ (renewedBlock first second block).instrs, image.isPhi = false :=
    unmerged_renewed unmerged first second
  rw [Block.exec_of_unmerged unmerged] at ran
  rw [Block.exec_of_unmerged noMerge]
  show ∃ last, Instr.execAll machine calls (renewed first second block.instrs) _ = _ ∧ _
  obtain ⟨front, terminator, split, goesOn, ends⟩ := wellFormed.exists_end
  have checked := wellFormed.checked terminator (by rw [split]; simp)
  rw [split] at ran carries apart ⊢
  rw [Instr.wanted_append] at carries
  rw [Instr.execAll_concat_iff goesOn] at ran
  obtain ⟨between, ranFront, ranLast⟩ := ran
  -- Behind the front, what the end reads is still wanted.
  have apartFront : Apart (second ∘ first) (Instr.Wanted out [terminator]) front := by
    intro before instr after isFront dest isDest var isWanted
    refine apart before instr (after ++ [terminator]) (by rw [isFront]; simp) dest isDest var ?_
    rwa [Instr.wanted_append]
  obtain ⟨middle, mirrored, carried⟩ := execAll_renewed carries apartFront ranFront
  have noDest := Instr.dest?_of_terminator checked ends
  obtain ⟨last, ended, carriedLast⟩ := carried.exec (fun arg isArg => .inl isArg)
    ranLast (fun var (isOut : out var) unwritten => .inr ⟨unwritten, isOut⟩) (fun dest isDest => by
      rw [noDest] at isDest
      cases isDest)
  refine ⟨last, ?_, carriedLast⟩
  have straight : ∀ image ∈ renewed first second front, image.isTerminator = false := by
    intro image inFront
    obtain ⟨instr, isInstr, rfl⟩ := exists_of_mem_renewed inFront
    rw [Instr.isTerminator_mapVars]
    exact goesOn instr isInstr
  rw [renewed_append, renewed_terminator ends, Instr.execAll_concat_iff straight]
  exact ⟨_, mirrored, ended⟩

end Coalescing

namespace Allocation

open Coalescing

/-! ## Flow graphs on registers -/

/-- What is written interferes with what is wanted behind, where there are no merges. -/
theorem adjacent_of_wanted {graph : FlowGraph} {liveOut : String → SortedSet String}
    {interference : Interference} (covers : Interference.Covers graph liveOut interference)
    {block : Block} (member : block ∈ graph.blocks)
    (unmerged : ∀ instr ∈ block.instrs, instr.isPhi = false)
    {before after : List Instr} {instr : Instr} (split : block.instrs = before ++ instr :: after)
    {dest var : String} (isDest : instr.dest? = some dest)
    (isWanted : Instr.Wanted (· ∈ liveOut block.name) after var) (apart : var ≠ dest) :
    interference.Adjacent dest var := by
  refine covers.apart block member before instr after split dest isDest var ?_ apart
  refine (Liveness.mem_stepBackAll fun other inside => unmerged other ?_).2 isWanted
  rw [split]
  exact List.mem_append_right _ (List.mem_cons_of_mem _ inside)

/-- A flow graph whose variables have new names and then newer ones, without superfluous copies. -/
def renewedGraph (first second : String → String) (graph : FlowGraph) : FlowGraph :=
  { graph with
    params := graph.params.map fun param => { param with name := second param.name }
    blocks := graph.blocks.map (renewedBlock first second) }

/-- Removing superfluous copies after names were changed. -/
theorem removeSelfCopies_mapVars (change : String → String) (graph : FlowGraph) :
    removeSelfCopies (graph.mapVars change) = renewedGraph change id graph := by
  have block_eq : ∀ block : Block, renewedBlock change id block =
      { block with instrs :=
        (block.instrs.map (Instr.mapVars change)).filter fun instr => !isSelfCopy instr } := by
    intro block
    unfold renewedBlock renewed
    rw [funext Instr.mapVars_id, List.map_id']
  unfold removeSelfCopies renewedGraph FlowGraph.mapVars
  rw [funext block_eq]
  simp only [List.map_map, id, List.map_id']
  rfl

/-- The variables of a renewed flow graph are the new names of old ones. -/
theorem exists_var_of_renewedGraph {first second : String → String} {graph : FlowGraph} {image : Block}
    (member : image ∈ (renewedGraph first second graph).blocks) {instr : Instr}
    (inside : instr ∈ image.instrs) {var : String} (isVar : var ∈ instr.args ∨ instr.dest? = some var) :
    ∃ block ∈ graph.blocks, ∃ old ∈ block.instrs, ∃ name,
      (name ∈ old.args ∨ old.dest? = some name) ∧ (second ∘ first) name = var := by
  obtain ⟨block, isBlock, rfl⟩ := List.mem_map.1 member
  obtain ⟨old, isOld, rfl⟩ := exists_of_mem_renewed inside
  refine ⟨block, isBlock, old, isOld, ?_⟩
  rw [Instr.args_mapVars, Instr.dest?_mapVars] at isVar
  rcases isVar with isArg | isDest
  · obtain ⟨name, inArgs, isName⟩ := List.mem_map.1 isArg
    exact ⟨name, .inl inArgs, isName⟩
  · obtain ⟨name, isDest, isName⟩ := Option.map_eq_some_iff.1 isDest
    exact ⟨name, .inr isDest, isName⟩

/-- New names that are fit for a flow graph: parameters keep theirs at first and then get different
ones, and what an instruction writes is kept apart from all that is live behind it. -/
structure Fit (first second : String → String) (liveOut : String → SortedSet String)
    (graph : FlowGraph) : Prop where
  /-- Parameters keep their names at first. -/
  params : ∀ param ∈ graph.paramNames, first param = param
  /-- Parameters get different names. -/
  nodup : (graph.paramNames.map second).Nodup
  /-- What is written has another name than what is wanted. -/
  apart : ∀ block ∈ graph.blocks, Apart (second ∘ first) (· ∈ liveOut block.name) block.instrs

/-- Parameters under different new names get the values that they got under the old ones. -/
theorem bindParams_map {params : List Param} {args : List Value} {change : String → String} {env : Env}
    (nodup : (params.map Param.name).Nodup) (nodupImage : ((params.map Param.name).map change).Nodup)
    (bound : bindParams params args = some env) :
    ∃ mirror, bindParams (params.map fun param => { param with name := change param.name }) args =
        some mirror ∧
      ∀ var value, env var = some value → var ∈ params.map Param.name ∧
        mirror (change var) = some value := by
  unfold bindParams at bound ⊢
  have names_eq : (params.map fun param => { param with name := change param.name }).map Param.name =
      (params.map Param.name).map change := by
    rw [List.map_map, List.map_map]
    rfl
  rw [List.length_map, names_eq]
  split at bound
  · rename_i length
    obtain rfl := Option.some.inj bound
    rw [if_pos length]
    refine ⟨_, rfl, fun var value held => ?_⟩
    have fst_eq : ∀ {names : List String}, names.length = params.length →
        (names.zip args).map Prod.fst = names := by
      intro names sameLength
      exact List.map_fst_zip (by omega)
    have isParam : var ∈ params.map Param.name := by
      by_contra absent
      rw [Env.assign_of_notMem (by rwa [fst_eq (List.length_map _)])] at held
      cases held
    refine ⟨isParam, ?_⟩
    -- The value is the one at the place of the name, and the new name has the same place.
    obtain ⟨⟨name, given⟩, inZip, rfl⟩ := List.mem_map.1
      (show var ∈ ((params.map Param.name).zip args).map Prod.fst by
        rwa [fst_eq (List.length_map _)])
    rw [Env.assign_of_mem (by rwa [fst_eq (List.length_map _)]) inZip] at held
    obtain rfl := Option.some.inj held
    refine Env.assign_of_mem (by rwa [fst_eq (by simp)]) ?_ _
    rw [List.zip_map_left]
    exact List.mem_map.2 ⟨_, inZip, rfl⟩
  · cases bound

section Renewed

variable {graph : FlowGraph} {first second : String → String} (wellFormed : graph.WellFormed)
  (unmerged : ∀ block ∈ graph.blocks, ∀ instr ∈ block.instrs, instr.isPhi = false)

include wellFormed unmerged

/-- A renewed flow graph is well-formed when its parameters have different names. -/
theorem wellFormed_renewedGraph (nodup : (graph.paramNames.map second).Nodup) :
    (renewedGraph first second graph).WellFormed := by
  have recoded : graph.Recoded { renewedGraph first second graph with params := graph.params } := by
    refine ⟨rfl, rfl, ?_⟩
    show List.Forall₂ _ graph.blocks (graph.blocks.map (renewedBlock first second))
    rw [List.forall₂_map_right_iff]
    refine List.forall₂_same.2 fun block member => ⟨rfl, ?_⟩
    exact renewedBlock_spec (wellFormed.blocks block member) (unmerged block member) first second
  obtain ⟨nonempty, nodupNames, blocks, targets, entry, _⟩ := recoded.wellFormed wellFormed
  refine ⟨nonempty, nodupNames, blocks, targets, entry, ?_⟩
  have names_eq : (renewedGraph first second graph).paramNames = graph.paramNames.map second := by
    unfold FlowGraph.paramNames renewedGraph
    rw [List.map_map, List.map_map]
    rfl
  rwa [names_eq]

/-- A flow graph whose variables have fit new names does what the old one did. -/
theorem refines_renewedGraph {visits : Nat} {live : Solution (SortedSet String)}
    (solved : Liveness.analysis.solve graph visits = .ok live)
    (fit : Fit first second (Liveness.liveOut live) graph) (machine : Machine) :
    graph.Refines machine (renewedGraph first second graph) := by
  refine FlowGraph.refines_of_simulation (fun _ block image _ env mirror => block ∈ graph.blocks ∧
    image = renewedBlock first second block ∧ Env.Carries
      (Instr.Wanted (· ∈ Liveness.liveOut live block.name) block.instrs) (second ∘ first) env mirror)
    fun calls => ⟨?_, ?_, ?_⟩
  · rintro block image source env mirror ⟨_, rfl, _⟩
    rfl
  · intro args env entry bound isEntry
    obtain ⟨mirror, boundImage, agree⟩ :=
      bindParams_map wellFormed.nodup_params fit.nodup bound
    refine ⟨mirror, renewedBlock first second entry, boundImage, ?_, List.mem_of_mem_head? isEntry,
      rfl, fun var _ value held => ?_⟩
    · show (graph.blocks.map (renewedBlock first second)).head? = _
      rw [List.head?_map, isEntry, Option.map_some]
    · obtain ⟨isParam, held⟩ := agree var value held
      rwa [Function.comp_apply, fit.params var isParam]
  · rintro block image source env mirror lines next control ⟨member, rfl, carries⟩ ran
    have blockFormed := wellFormed.blocks block member
    obtain ⟨last, mirrored, carried⟩ := exec_renewedBlock blockFormed (unmerged block member) carries
      (fit.apart block member) ran
    refine ⟨last, mirrored, ?_⟩
    rintro label target rfl found
    obtain ⟨targetMember, rfl⟩ := (FlowGraph.find?_eq_some_iff wellFormed.nodup_names).1 found
    refine ⟨renewedBlock first second target, ?_, targetMember, rfl, ?_⟩
    · rw [FlowGraph.find?_map graph (renewedBlock first second) (fun _ => rfl) rfl, found,
        Option.map_some]
    · -- What a successor wants at its start is live at the end of this block.
      refine carried.mono fun var isWanted => ?_
      rw [← Liveness.mem_stepBackAll (unmerged target targetMember)] at isWanted
      exact Liveness.mem_liveOut_of_leads solved wellFormed.nodup_names member targetMember
        (blockFormed.jump_mem ran) isWanted

end Renewed

/-! ## Allocated functions -/

/-- A flow graph under other names is written out as what it is written out as, under these names. -/
theorem flattenBlocks_mapVars (change : String → String) {graph : FlowGraph} {blocks : List Block}
    {instrs : List Instr} (flat : graph.flattenBlocks blocks = .ok instrs) (other : FlowGraph)
    (sameKey : other.nextKey = graph.nextKey) :
    other.flattenBlocks (blocks.map (Block.mapVars change)) =
      .ok (instrs.map (Instr.mapVars change)) := by
  induction blocks generalizing graph instrs other with
  | nil =>
    obtain rfl := Except.ok.inj flat
    rfl
  | cons block rest restIH =>
    rw [FlowGraph.flattenBlocks] at flat
    obtain ⟨⟨key, keyed⟩, isKey, flat⟩ := Attempt.bind_eq_ok.1 flat
    obtain ⟨others, flatRest, isInstrs⟩ := Attempt.bind_eq_ok.1 flat
    obtain rfl := Except.ok.inj isInstrs
    obtain ⟨rfl, rfl⟩ := FlowGraph.freshKey_eq_ok isKey
    have otherKey : other.freshKey =
        .ok (graph.nextKey, { other with nextKey := graph.nextKey + 1 }) := by
      unfold FlowGraph.freshKey at isKey ⊢
      rw [sameKey]
      split at isKey
      · rename_i room
        rw [if_pos room]
      · cases isKey
    rw [List.map_cons, FlowGraph.flattenBlocks, otherKey, Attempt.ok_bind]
    dsimp only
    rw [restIH flatRest { other with nextKey := graph.nextKey + 1 } rfl, Attempt.ok_bind,
      List.map_cons, List.map_append]
    rfl

/-- What is written out for blocks are labels and their instructions. -/
theorem mem_of_flattened {blocks : List Block} {instrs : List Instr}
    (flattened : FlowGraph.Flattened blocks instrs) {instr : Instr} (member : instr ∈ instrs) :
    instr.isLabel = true ∨ ∃ block ∈ blocks, instr ∈ block.instrs := by
  induction flattened with
  | nil => cases member
  | cons isLabel _ restIH =>
    rcases List.mem_cons.1 member with rfl | member
    · left
      rw [Instr.isLabel, isLabel]
    · rcases List.mem_append.1 member with inBlock | inRest
      · exact .inr ⟨_, List.mem_cons_self .., inBlock⟩
      · refine (restIH inRest).imp_right ?_
        rintro ⟨block, inside, held⟩
        exact ⟨block, List.mem_cons_of_mem _ inside, held⟩

/-- The flow graph of a function without merges is taken as it is. -/
theorem builtFrom_of_withoutPhis {function : Func}
    (unmerged : ∀ instr ∈ function.instrs, instr.isPhi = false) {graph : FlowGraph}
    (lowered : withoutPhis function = .ok graph) : FlowGraph.BuiltFrom function graph := by
  obtain ⟨built, isGraph, lowered⟩ := Attempt.bind_eq_ok.1 lowered
  obtain ⟨⟨start, log⟩, isBuilt, same⟩ := Attempt.bind_eq_ok.1 isGraph
  obtain rfl : start = built := Except.ok.inj same
  have builtFrom := FlowGraph.builtFrom_of_build isBuilt
  obtain ⟨_, noMerge⟩ := builtFrom.of_unmerged unmerged
  have noPhi : (start.blocks.any fun block => block.phiCount ≠ 0) = false := by
    rw [List.any_eq_false]
    intro block member
    obtain ⟨phis_eq, _⟩ := Block.phis_of_split (List.nil_append block.instrs).symm (by simp)
      (noMerge block member)
    simp [Block.phiCount, phis_eq]
  rw [noPhi, if_neg Bool.false_ne_true] at lowered
  obtain rfl : start = graph := Except.ok.inj lowered
  exact builtFrom

/-- How a function without merges was allocated: the live variables of its flow graph, the names that
coalescing changed, the interference that was left and the registers. -/
structure Allocated (registers : List String) (function output : Func) (colors : Coloring)
    (graph : FlowGraph) (live : Solution (SortedSet String)) (change : String → String)
    (merged : Interference) : Prop where
  /-- The flow graph has the code of the function. -/
  builtFrom : FlowGraph.BuiltFrom function graph
  /-- Its live variables are known. -/
  solved : Liveness.analysis.solve graph = .ok live
  /-- Its copies are coalesced. -/
  coalesced : Coalesced change graph (.ofLiveness graph live) (graph.mapVars change) merged
  /-- The variables that are left have registers. -/
  colored : Coloring.ofInterference merged registers = .ok colors
  /-- It is written out. -/
  flat : (removeSelfCopies (graph.mapVars change)).flatten = .ok output

/-- How a function without merges that got registers was allocated. -/
theorem exists_allocated {registers : List String} {function : Func} {allocated : AllocatedFunc}
    {colors : Coloring} (unmerged : ∀ instr ∈ function.instrs, instr.isPhi = false)
    (done : ofFunc registers function = .ok allocated) (colored : allocated.coloring = .ok colors) :
    ∃ graph live change merged,
      Allocated registers function allocated.function colors graph live change merged := by
  obtain ⟨graph, lowered, done⟩ := Attempt.bind_eq_ok.1 done
  obtain ⟨interference, interferes, done⟩ := Attempt.bind_eq_ok.1 done
  obtain ⟨live, solved, isInterference⟩ := Attempt.bind_eq_ok.1 interferes
  obtain rfl : Interference.ofLiveness graph live = interference := Except.ok.inj isInterference
  obtain ⟨output, flat, isAllocated⟩ := Attempt.bind_eq_ok.1 done
  obtain rfl := Except.ok.inj isAllocated
  obtain ⟨change, coalesced⟩ := exists_coalesced graph.instructionCount graph
    (Interference.covers_ofLiveness graph live).simple
  have graph_eq := coalesced.graph_eq
  refine ⟨graph, live, change, _, builtFrom_of_withoutPhis unmerged lowered, solved,
    graph_eq ▸ coalesced, ?_, ?_⟩
  · dsimp only [Coalescing.run] at colored
    split at colored
    · rename_i coloring isColoring
      rw [isColoring, Except.ok.inj colored]
    · cases colored
  · rw [← graph_eq]
    exact flat

namespace Allocated

variable {registers : List String} {function output : Func} {colors : Coloring} {graph : FlowGraph}
  {live : Solution (SortedSet String)} {change : String → String} {merged : Interference}

section

variable (allocated : Allocated registers function output colors graph live change merged)

include allocated

/-- Every variable of the flow graph has a register. -/
theorem exists_register {var : String}
    (member : var ∈ (Interference.ofLiveness graph live).nodes) :
    ∃ register ∈ registers, colors.get? (change var) = some register := by
  have contracts := allocated.coalesced.contracts
  obtain ⟨all, ofRegisters, _⟩ := Coloring.ofInterference_spec contracts.simple allocated.colored
  obtain ⟨register, held⟩ := (all _).2 (contracts.nodes var member)
  exact ⟨register, ofRegisters _ register held, held⟩

/-- Variables that interfere have different registers. -/
theorem registerOf_ne {left right : String}
    (adjacent : (Interference.ofLiveness graph live).Adjacent left right) :
    colors.get? (change left) ≠ colors.get? (change right) ∧
      colors.registerOf (change left) ≠ colors.registerOf (change right) := by
  have contracts := allocated.coalesced.contracts
  obtain ⟨_, _, separates⟩ := Coloring.ofInterference_spec contracts.simple allocated.colored
  have simple := (Interference.covers_ofLiveness graph live).simple
  obtain ⟨first, _, isFirst⟩ := allocated.exists_register adjacent.mem_nodes
  obtain ⟨second, _, isSecond⟩ :=
    allocated.exists_register (simple.symm _ _ adjacent).mem_nodes
  have apart := separates _ _ (contracts.adjacent _ _ adjacent) first isFirst
  rw [isSecond] at apart
  have distinct : first ≠ second := fun same => apart (congrArg some same.symm)
  unfold Coloring.registerOf SortedMap.getD
  rw [isFirst, isSecond]
  exact ⟨fun same => distinct (Option.some.inj same), distinct⟩

/-- On registers the function is the flow graph under its new names, written out. -/
theorem flatten_renewedGraph :
    (renewedGraph change colors.registerOf graph).flatten = .ok (output.applyColoring colors) := by
  obtain ⟨instrs, flat, isOutput⟩ := Attempt.bind_eq_ok.1 allocated.flat
  obtain rfl := Except.ok.inj isOutput
  have blocks_eq : (renewedGraph change colors.registerOf graph).blocks =
      (removeSelfCopies (graph.mapVars change)).blocks.map (Block.mapVars colors.registerOf) := by
    unfold renewedGraph removeSelfCopies FlowGraph.mapVars
    simp only [List.map_map]
    rfl
  rw [FlowGraph.flatten, blocks_eq, flattenBlocks_mapVars colors.registerOf flat
    (renewedGraph change colors.registerOf graph) rfl]
  rfl

/-- Every variable of the function that is written out is one of the flow graph under its new name. -/
theorem exists_register_of_mem {var : String} (member : var ∈ output.vars) :
    ∃ register ∈ registers, colors.get? var = some register := by
  have covers := Interference.covers_ofLiveness graph live
  obtain ⟨instrs, flat, isOutput⟩ := Attempt.bind_eq_ok.1 allocated.flat
  obtain rfl := Except.ok.inj isOutput
  rcases List.mem_append.1 member with isParam | isVar
  · have isParam : var ∈ graph.paramNames := isParam
    rw [← allocated.coalesced.params var isParam]
    exact allocated.exists_register (covers.params var isParam)
  · obtain ⟨image, inside, isVar⟩ := List.mem_flatMap.1 isVar
    rcases mem_of_flattened (FlowGraph.flattened_of_flattenBlocks flat) inside with
      isLabel | ⟨block, isBlock, inBlock⟩
    · -- A label has no variables.
      exfalso
      unfold Instr.isLabel at isLabel
      split at isLabel
      · rename_i action
        simp [Instr.dest?, Instr.args, action, Action.dest?, Action.operands] at isVar
      · cases isLabel
    · rw [List.mem_append, Option.mem_toList, or_comm] at isVar
      rw [removeSelfCopies_mapVars] at isBlock
      obtain ⟨original, isOriginal, instr, isInstr, old, isOld, rfl⟩ :=
        exists_var_of_renewedGraph isBlock inBlock isVar
      exact allocated.exists_register (covers.vars original isOriginal instr isInstr old isOld)

variable (unmerged : ∀ instr ∈ function.instrs, instr.isPhi = false)

include unmerged

/-- Parameters have different registers. -/
theorem pairwise_params : graph.paramNames.Pairwise fun left right =>
    colors.get? left ≠ colors.get? right ∧ colors.registerOf left ≠ colors.registerOf right := by
  have nodup := (allocated.builtFrom.of_unmerged unmerged).1.nodup_params
  have adjacent := (Interference.covers_ofLiveness graph live).params_apart
  refine (nodup.and adjacent).imp_of_mem fun {left right} isLeft isRight facts => ?_
  have apart := allocated.registerOf_ne (facts.2 facts.1)
  rwa [allocated.coalesced.params left isLeft, allocated.coalesced.params right isRight] at apart

/-- The new names are fit for the flow graph. -/
theorem fit : Fit change colors.registerOf (Liveness.liveOut live) graph := by
  have covers := Interference.covers_ofLiveness graph live
  obtain ⟨_, noMerge⟩ := allocated.builtFrom.of_unmerged unmerged
  refine ⟨allocated.coalesced.params, ?_, ?_⟩
  · refine List.Pairwise.map _ (fun left right apart => ?_) (allocated.pairwise_params unmerged)
    exact apart.2
  · intro block member before instr after split dest isDest var isWanted isOther
    exact Ne.symm (allocated.registerOf_ne
      (adjacent_of_wanted covers member (noMerge block member) split isDest isWanted isOther)).2

end

end Allocated

/-! ## Result -/

/-- The variables of an allocated function without merges have registers, its parameters different
ones, and on registers it yields whatever the function yields. -/
theorem ofFunc_runs {registers : List String} {function : Func} {allocated : AllocatedFunc}
    {colors : Coloring} (unmerged : ∀ instr ∈ function.instrs, instr.isPhi = false)
    (done : ofFunc registers function = .ok allocated) (colored : allocated.coloring = .ok colors) :
    (∀ var ∈ allocated.function.vars, ∃ register ∈ registers, colors.get? var = some register) ∧
      (allocated.function.params.map fun param => colors.get? param.name).Nodup ∧
      ∀ machine, function.Refines machine (allocated.function.applyColoring colors) := by
  obtain ⟨graph, live, change, merged, isAllocated⟩ := exists_allocated unmerged done colored
  obtain ⟨wellFormed, noMerge⟩ := isAllocated.builtFrom.of_unmerged unmerged
  have fit := isAllocated.fit unmerged
  refine ⟨fun var member => isAllocated.exists_register_of_mem member, ?_, ?_⟩
  · obtain ⟨instrs, _, isOutput⟩ := Attempt.bind_eq_ok.1 isAllocated.flat
    rw [← Except.ok.inj isOutput]
    have apart := isAllocated.pairwise_params unmerged
    rw [FlowGraph.paramNames, List.pairwise_map] at apart
    exact List.pairwise_map.2 (apart.imp And.left)
  · intro machine calls args answer yields
    rw [FlowGraph.yields_flatten_iff (wellFormed_renewedGraph wellFormed noMerge fit.nodup)
      isAllocated.flatten_renewedGraph]
    exact refines_renewedGraph wellFormed noMerge isAllocated.solved fit machine calls args answer
      (isAllocated.builtFrom.yields unmerged yields)

/-- A loop that hands two numbers on through copies. -/
def handOn : Func where
  name := "hand"
  params := [⟨"a", .int⟩, ⟨"b", .int⟩]
  returnType := some .int
  instrs := [.copy "x" .int "a", .copy "y" .int "b", .const "zero" .int (.int 0), .label "loop",
    .compute .add "sum" .int ["x", "y"], .copy "x" .int "y", .copy "y" .int "sum",
    .compute .lt "more" .bool ["y", "zero"], .br "more" "loop" "done", .label "done",
    .effect .print ["x", "y"] [], .ret (some "y")]
  pos := none

/-- The loop that hands on numbers runs on four registers. -/
theorem ofFunc_runs_handOn : ∃ allocated colors,
    ofFunc ["r0", "r1", "r2", "r3"] handOn = .ok allocated ∧ allocated.coloring = .ok colors ∧
      (allocated.function.applyColoring colors).Yields .withoutFloats (fun _ _ => none)
        [.int 3, .int (-1)] ⟨["-1 2"], some (.int 2)⟩ := by
  have enough : (ofFunc ["r0", "r1", "r2", "r3"] handOn).map
      (fun allocated => allocated.coloring.isOk) = .ok true := by
    decide +kernel
  obtain ⟨allocated, done, isColored⟩ := Attempt.map_eq_ok.1 enough
  obtain ⟨colors, colored⟩ : ∃ colors, allocated.coloring = .ok colors := by
    cases coloring : allocated.coloring with
    | ok colors => exact ⟨colors, rfl⟩
    | error error =>
      rw [coloring] at isColored
      cases isColored
  obtain ⟨_, _, runs⟩ := ofFunc_runs (by decide) done colored
  exact ⟨allocated, colors, done, colored, runs _ _ _ _ ⟨30, rfl⟩⟩

end Allocation

end Midend
