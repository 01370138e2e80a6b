import Midend.Proofs.Dataflow.Convergence
import Midend.Proofs.Registers.Allocation

/-! # Copies are merged safely

Each merge leaves fewer copies of one variable to another, so that the search for them ends by itself
(`Coalescing.merges_mergeCopies`), and then no copy is left that could be merged. Liveness is not
computed again; if it were, only new names of what was live would be found live
(`Coalescing.exists_of_liveAtEnd`). A copy that was removed is the interesting case: what it wrote need
not be live in front of it, but what it read is, and that has the same new name. So the interference
that is kept has all edges of the one that would be found (`Coalescing.within_merged`). -/

namespace Midend

namespace Coalescing

open Allocation

variable {graph after : FlowGraph} {interference merged : Interference}

/-! ## The end of the search -/

/-- Copies are merged until there is none that may be, however many merges that takes. -/
inductive Merges : FlowGraph → Interference → List (String × String) → FlowGraph → Interference → Prop
  | /-- No copy may be merged. -/
    done {graph : FlowGraph} {interference : Interference}
      (none : nextMerge? graph interference = none) : Merges graph interference [] graph interference
  | /-- The first copy that may be merged is. -/
    step {graph after : FlowGraph} {interference merged : Interference} {old new : String}
      {merges : List (String × String)} (next : nextMerge? graph interference = some (old, new))
      (later : Merges (rename graph old new) (interference.merge old new) merges after merged) :
      Merges graph interference ((old, new) :: merges) after merged

/-- At the end no copy may be merged. -/
theorem Merges.nextMerge?_eq_none {merges : List (String × String)}
    (areMerged : Merges graph interference merges after merged) : nextMerge? after merged = none := by
  induction areMerged with
  | done none => exact none
  | step _ _ laterIH => exact laterIH

/-- The search ends by itself, after as many merges at most as there are copies. -/
theorem merges_mergeCopies {budget : Nat} {merges : List (String × String)}
    (enough : copyCount graph ≤ budget)
    (isRun : mergeCopies budget graph interference = (after, merged, merges)) :
    Merges graph interference merges after merged ∧ merges.length ≤ copyCount graph := by
  induction budget generalizing graph interference merges with
  | zero =>
    obtain ⟨rfl, rfl, rfl⟩ : graph = after ∧ interference = merged ∧ [] = merges := by
      simpa [mergeCopies] using isRun
    cases next : nextMerge? graph interference with
    | none => exact ⟨.done next, Nat.zero_le _⟩
    | some merge =>
      -- Without copies there is nothing to merge.
      have fewer := copyCount_rename_lt next
      omega
  | succ budget budgetIH =>
    rw [mergeCopies] at isRun
    split at isRun
    · rename_i next
      obtain ⟨rfl, rfl, rfl⟩ : graph = after ∧ interference = merged ∧ [] = merges := by
        simpa using isRun
      exact ⟨.done next, Nat.zero_le _⟩
    · rename_i old new next
      -- The copy whose sides were merged is one no more.
      have fewer := copyCount_rename_lt next
      cases isLater : mergeCopies budget (rename graph old new) (interference.merge old new) with
      | mk renamed rest =>
        rw [isLater] at isRun
        obtain ⟨rfl, rfl, rfl⟩ : renamed = after ∧ rest.1 = merged ∧
            (old, new) :: rest.2 = merges := by simpa using isRun
        obtain ⟨areMerged, few⟩ := budgetIH (by omega) isLater
        refine ⟨.step next areMerged, ?_⟩
        rw [List.length_cons]
        omega

/-- Coalescing merges copies and removes those that became superfluous. -/
theorem exists_of_run {events : Log} (coalesced : run graph interference = (after, merged, events)) :
    ∃ renamed merges, mergeCopies graph.instructionCount graph interference =
      (renamed, merged, merges) ∧ after = removeSelfCopies renamed := by
  obtain ⟨rfl, rfl, _⟩ : removeSelfCopies _ = after ∧ _ = merged ∧ _ = events := by
    simpa [run] using coalesced
  exact ⟨_, _, rfl, rfl⟩

/-- The sides of a copy that may not be merged are the same, both parameters, or neighbours. -/
theorem sides_of_nextMerge?_eq_none (none : nextMerge? graph interference = none) {instr : Instr}
    (member : instr ∈ graph.instrs) {dest source : String}
    (sides : copySides? instr = some (dest, source)) : dest = source ∨
      (dest ∈ graph.paramNames ∧ source ∈ graph.paramNames) ∨ interference.Adjacent dest source := by
  have refused := List.findSome?_eq_none_iff.1 none instr member
  rw [sides, Option.bind_some] at refused
  dsimp only at refused
  unfold mergeOf? at refused
  split at refused
  · rename_i bound
    exact bound.imp_right fun neighbours => .inr (Interference.interferes_iff.1 neighbours)
  · split at refused
    · rename_i isDest isSource
      exact .inr (.inl ⟨List.contains_iff_mem.1 isDest, List.contains_iff_mem.1 isSource⟩)
    · cases refused
    · cases refused

/-! ## What is live under new names -/

section Renewed

variable {first second : String → String}

/-- What is wanted under new names in front of instructions is the new name of something that was
wanted there, if it is when it is wanted behind them. -/
theorem exists_wanted_of_renewed {instrs : List Instr} {out image : String → Prop} {name : String}
    (known : image name → ∃ var, (second ∘ first) var = name ∧ out var)
    (wanted : Instr.Wanted image (renewed first second instrs) name) :
    ∃ var, (second ∘ first) var = name ∧ Instr.Wanted out instrs var := by
  induction instrs with
  | nil => exact known wanted
  | cons instr rest restIH =>
    rw [renewed_cons] at wanted
    by_cases isCopy : isSelfCopy (instr.mapVars first) = true
    · rw [if_pos isCopy] at wanted
      obtain ⟨var, isName, isWanted⟩ := restIH wanted
      obtain ⟨same, sides⟩ := isSelfCopy_iff_copySides?.1 isCopy
      rw [copySides?_mapVars, Option.map_eq_some_iff] at sides
      obtain ⟨⟨dest, source⟩, sides, isSame⟩ := sides
      obtain ⟨isLeft, isRight⟩ := Prod.mk.inj isSame
      obtain ⟨ty, operands, action, args⟩ := copySides?_eq_some sides
      by_cases isDest : instr.dest? = some var
      · -- The copy that is gone wrote the variable: its source has the same new name.
        rw [Instr.dest?, action] at isDest
        obtain rfl : dest = var := Option.some.inj isDest
        refine ⟨source, ?_, .inl ?_⟩
        · rw [← isName, Function.comp_apply, Function.comp_apply, isLeft, isRight]
        · rw [Instr.args, action, Action.operands, args]
          exact List.mem_singleton_self _
      · exact ⟨var, isName, .inr ⟨isDest, isWanted⟩⟩
    · rw [if_neg isCopy] at wanted
      rcases wanted with isArg | ⟨unwritten, later⟩
      · rw [Instr.args_mapVars] at isArg
        obtain ⟨var, inArgs, isName⟩ := List.mem_map.1 isArg
        exact ⟨var, isName, .inl inArgs⟩
      · obtain ⟨var, isName, isWanted⟩ := restIH later
        refine ⟨var, isName, .inr ⟨fun isDest => unwritten ?_, isWanted⟩⟩
        rw [Instr.dest?_mapVars, isDest, Option.map_some, isName]

/-- Where renewed instructions are split, the old ones are. -/
theorem exists_split_of_renewed {instrs before later : List Instr} {image : Instr}
    (split : renewed first second instrs = before ++ image :: later) :
    ∃ front instr rest, instrs = front ++ instr :: rest ∧
      image = instr.mapVars (second ∘ first) ∧ later = renewed first second rest := by
  induction instrs generalizing before with
  | nil => simp [renewed] at split
  | cons instr rest restIH =>
    rw [renewed_cons] at split
    by_cases isCopy : isSelfCopy (instr.mapVars first) = true
    · rw [if_pos isCopy] at split
      obtain ⟨front, other, back, rfl, isImage, isLater⟩ := restIH split
      exact ⟨instr :: front, other, back, rfl, isImage, isLater⟩
    · rw [if_neg isCopy] at split
      cases before with
      | nil =>
        obtain ⟨isImage, isLater⟩ := List.cons.inj split
        exact ⟨[], instr, rest, rfl, isImage.symm, isLater.symm⟩
      | cons _ before =>
        obtain ⟨front, other, back, rfl, isImage, isLater⟩ := restIH (List.cons.inj split).2
        exact ⟨instr :: front, other, back, rfl, isImage, isLater⟩

variable (wellFormed : graph.WellFormed)
  (unmerged : ∀ block ∈ graph.blocks, ∀ instr ∈ block.instrs, instr.isPhi = false)
  {visits : Nat} {live : Solution (SortedSet String)}
  (solved : Liveness.analysis.solve graph visits = .ok live)

omit wellFormed in
include unmerged in
/-- A renewed flow graph has no merges if the old one has none. -/
theorem unmerged_renewedGraph : ∀ image ∈ (renewedGraph first second graph).blocks,
    ∀ instr ∈ image.instrs, instr.isPhi = false := by
  intro image member
  obtain ⟨block, isBlock, rfl⟩ := List.mem_map.1 member
  exact unmerged_renewed (unmerged block isBlock) first second

include wellFormed unmerged solved

/-- What is wanted under new names in front of a block that is led to is the new name of something that
was live at the end of this one. -/
theorem exists_of_links {name : String} {block target : Block} (member : block ∈ graph.blocks)
    (links : (renewedGraph first second graph).Links (renewedBlock first second block) target)
    (image : String → Prop) (known : ∀ other ∈ graph.blocks, renewedBlock first second other = target →
      image name → ∃ var, (second ∘ first) var = name ∧ var ∈ Liveness.liveOut live other.name)
    (wanted : Instr.Wanted image target.instrs name) :
    ∃ var, (second ∘ first) var = name ∧ var ∈ Liveness.liveOut live block.name := by
  obtain ⟨other, otherMember, rfl⟩ := List.mem_map.1 links.target_mem
  obtain ⟨var, isName, isWanted⟩ := exists_wanted_of_renewed (known other otherMember rfl) wanted
  rw [← Liveness.mem_stepBackAll (unmerged other otherMember)] at isWanted
  have leads := links.leads
  rw [(renewedBlock_spec (wellFormed.blocks block member) (unmerged block member) ..).1] at leads
  exact ⟨var, isName, Liveness.mem_liveOut_of_leads solved wellFormed.nodup_names member otherMember
    leads isWanted⟩

/-- What is live under new names at the end of a block is the new name of something that was live
there. -/
theorem exists_of_liveAtEnd {name : String} {image : Block}
    (isLive : Liveness.LiveAtEnd (renewedGraph first second graph) name image) {block : Block}
    (member : block ∈ graph.blocks) (isImage : renewedBlock first second block = image) :
    ∃ var, (second ∘ first) var = name ∧ var ∈ Liveness.liveOut live block.name := by
  have noMerge := @unmerged_renewedGraph graph first second unmerged
  -- By induction on how the name becomes live: a block that is led to reads it, or passes it on.
  unfold Liveness.LiveAtEnd Analysis.Finds at isLive
  induction isLive generalizing block with
  | start starts => exact absurd starts.2.2 (SortedSet.not_mem_empty name)
  | @sent target image feeds isSent =>
    subst isImage
    have links : (renewedGraph first second graph).Links (renewedBlock first second block) target :=
      feeds
    have exposed : Liveness.Exposes target.instrs name := by
      -- No edge adds anything, since there are no merges.
      refine isSent.resolve_left ?_
      rintro ⟨phi, isPhi, _⟩
      have noPhi := noMerge target links.target_mem phi (Block.mem_of_mem_phis isPhi)
      rw [Block.isPhi_of_mem_phis isPhi] at noPhi
      cases noPhi
    exact exists_of_links wellFormed unmerged solved member links (fun _ => False)
      (fun _ _ _ => False.elim)
      ((Liveness.wanted_iff (noMerge target links.target_mem)).2 (.inl exposed))
  | @kept target image feeds isKept _ targetIH =>
    subst isImage
    have links : (renewedGraph first second graph).Links (renewedBlock first second block) target :=
      feeds
    exact exists_of_links wellFormed unmerged solved member links (· = name)
      (fun other otherMember isTarget _ => targetIH otherMember isTarget)
      ((Liveness.wanted_iff (noMerge target links.target_mem)).2 (.inr ⟨isKept, rfl⟩))

/-- What is live under new names behind instructions of a block is the new name of something that was
live there. -/
theorem exists_of_mem_stepBackAll {more : Nat} {later : Solution (SortedSet String)}
    (solvedLater : Liveness.analysis.solve (renewedGraph first second graph) more = .ok later)
    {block : Block} (member : block ∈ graph.blocks) {rest : List Instr}
    (inside : ∀ instr ∈ rest, instr ∈ block.instrs) {name : String} (isLive : name ∈
      Liveness.stepBackAll (renewed first second rest) (Liveness.liveOut later block.name)) :
    ∃ var, (second ∘ first) var = name ∧
      var ∈ Liveness.stepBackAll rest (Liveness.liveOut live block.name) := by
  have noMerge := fun instr isRest => unmerged block member instr (inside instr isRest)
  have names_eq : (renewedGraph first second graph).names = graph.names := List.map_map
  have found : renewedBlock first second block ∈ (renewedGraph first second graph).blocks :=
    List.mem_map_of_mem member
  rw [Liveness.mem_stepBackAll (unmerged_renewed noMerge first second)] at isLive
  obtain ⟨var, isName, isWanted⟩ := exists_wanted_of_renewed (fun atEnd => by
    have arrives := (Liveness.liveOut_spec solvedLater (names_eq ▸ wellFormed.nodup_names) found
      name).1.1 atEnd
    exact exists_of_liveAtEnd wellFormed unmerged solved arrives member rfl) isLive
  exact ⟨var, isName, (Liveness.mem_stepBackAll noMerge).2 isWanted⟩

end Renewed

/-! ## Coalesced flow graphs -/

section Coalesced

variable (wellFormed : graph.WellFormed)
  (unmerged : ∀ block ∈ graph.blocks, ∀ instr ∈ block.instrs, instr.isPhi = false)
  {visits : Nat} {live : Solution (SortedSet String)} {change : String → String}

include wellFormed unmerged in
/-- A flow graph without superfluous copies is well-formed, with the old parameters. -/
theorem coalesced_wellFormed (change : String → String) :
    (renewedGraph change id graph).params = graph.params ∧
      (renewedGraph change id graph).WellFormed := by
  have params_eq : (renewedGraph change id graph).params = graph.params := List.map_id _
  refine ⟨params_eq, wellFormed_renewedGraph wellFormed unmerged ?_⟩
  rw [List.map_id]
  exact wellFormed.nodup_params

variable (coalesced : Coalesced change graph (.ofLiveness graph live) (graph.mapVars change) merged)

include coalesced

/-- All variables are known in the interference that is kept. -/
theorem mem_nodes_of_coalesced {var : String}
    (isVar : var ∈ (renewedGraph change id graph).vars ∨
      var ∈ (renewedGraph change id graph).operands) : var ∈ merged.nodes := by
  have covers := Interference.covers_ofLiveness graph live
  have ofInstr : ∀ image ∈ (renewedGraph change id graph).blocks, ∀ instr ∈ image.instrs,
      var ∈ instr.args ∨ instr.dest? = some var → var ∈ merged.nodes := by
    intro image member instr inside isVar
    obtain ⟨block, isBlock, old, isOld, name, isName, rfl⟩ :=
      exists_var_of_renewedGraph member inside isVar
    exact coalesced.contracts.nodes name (covers.vars block isBlock old isOld name isName)
  rcases isVar with isVar | isOperand
  · rcases List.mem_append.1 isVar with isParam | isDest
    · have isParam : var ∈ graph.paramNames := by
        rwa [FlowGraph.paramNames, renewedGraph, List.map_map] at isParam
      rw [← coalesced.params var isParam]
      exact coalesced.contracts.nodes var (covers.params var isParam)
    · obtain ⟨instr, inside, isDest⟩ := List.mem_filterMap.1 isDest
      obtain ⟨image, member, inside⟩ := List.mem_flatMap.1 inside
      exact ofInstr image member instr inside (.inr isDest)
  · obtain ⟨instr, inside, isArg⟩ := List.mem_flatMap.1 isOperand
    obtain ⟨image, member, inside⟩ := List.mem_flatMap.1 inside
    exact ofInstr image member instr inside (.inl isArg)

/-- The new names are fit for the flow graph. -/
theorem fit_of_coalesced (nodup : graph.paramNames.Nodup)
    (unmerged : ∀ block ∈ graph.blocks, ∀ instr ∈ block.instrs, instr.isPhi = false) :
    Fit change id (Liveness.liveOut live) graph := by
  refine ⟨coalesced.params, by rwa [List.map_id], ?_⟩
  intro block member before instr after split dest isDest var isWanted isOther same
  have adjacent := coalesced.contracts.adjacent dest var (adjacent_of_wanted
    (Interference.covers_ofLiveness graph live) member (unmerged block member) split isDest isWanted
    isOther)
  rw [show change var = change dest from same] at adjacent
  exact coalesced.contracts.simple.irrefl _ adjacent

include wellFormed unmerged in
/-- The interference that is kept has all edges that would be found if liveness were computed again. -/
theorem within_merged (solved : Liveness.analysis.solve graph visits = .ok live) {more : Nat}
    {later : Solution (SortedSet String)}
    (solvedLater : Liveness.analysis.solve (renewedGraph change id graph) more = .ok later) :
    (Interference.ofLiveness (renewedGraph change id graph) later).Within merged.Adjacent := by
  have covers := Interference.covers_ofLiveness graph live
  have contracts := coalesced.contracts
  obtain ⟨params_eq, formed⟩ := coalesced_wellFormed wellFormed unmerged change
  have paramNames_eq : (renewedGraph change id graph).paramNames = graph.paramNames := by
    rw [FlowGraph.paramNames, params_eq, FlowGraph.paramNames]
  have behind := @exists_of_mem_stepBackAll _ change id wellFormed unmerged _ _ solved _ _ solvedLater
  refine Interference.within_ofLiveness contracts.simple.symm ?_ ?_ ?_
  · rw [paramNames_eq]
    intro left isLeft right isRight apart
    have adjacent := contracts.adjacent left right
      (covers.adjacent_params isLeft isRight (Ne.symm apart))
    rwa [coalesced.params left isLeft, coalesced.params right isRight] at adjacent
  · rw [paramNames_eq]
    intro image isFirst param isParam name isImage apart
    obtain ⟨entry, isEntry, rfl⟩ : ∃ entry, graph.blocks.head? = some entry ∧
        renewedBlock change id entry = image := by
      rwa [renewedGraph, List.head?_map, Option.map_eq_some_iff] at isFirst
    have member := List.mem_of_mem_head? isEntry
    rw [(Liveness.liveOut_spec solvedLater formed.nodup_names (List.mem_map_of_mem member)
      name).2] at isImage
    obtain ⟨var, rfl, isLive⟩ := behind member (fun _ inside => inside) isImage
    -- The variable is no parameter of that name, since parameters keep their names.
    rw [← (Liveness.liveOut_spec solved wellFormed.nodup_names member var).2] at isLive
    have adjacent := contracts.adjacent param var (Interference.adjacent_of_live_at_entry live isEntry
      isParam isLive fun same => apart (same ▸ coalesced.params param isParam))
    rwa [coalesced.params param isParam] at adjacent
  · intro image member before written after split dest writes name isImage apart
    obtain ⟨block, isBlock, rfl⟩ := List.mem_map.1 member
    obtain ⟨front, instr, rest, isSplit, rfl, rfl⟩ := exists_split_of_renewed split
    rw [Instr.dest?_mapVars, Option.map_eq_some_iff] at writes
    obtain ⟨old, isDest, rfl⟩ := writes
    obtain ⟨var, rfl, isLive⟩ :=
      behind isBlock (fun other inside => by simp [isSplit, inside]) isImage
    exact contracts.adjacent old var (covers.apart block isBlock front instr rest isSplit old isDest
      var isLive fun same => apart (congrArg change same))

end Coalesced

/-! ## Result -/

/-- Coalescing the flow graph of a function without merges ends by itself. The interference that it
keeps knows all variables of the result and has all edges of the one that would be found for the result;
parameters keep their names; no copy is left of a variable to itself, nor one that could still be
merged; and the result yields whatever the flow graph yields. -/
theorem run_coalesces {function : Func} {log : Log}
    (built : FlowGraph.build function = .ok (graph, log))
    (unmerged : ∀ block ∈ graph.blocks, ∀ instr ∈ block.instrs, instr.isPhi = false) {visits : Nat}
    {live : Solution (SortedSet String)} (solved : Liveness.analysis.solve graph visits = .ok live)
    {events : Log} (coalesced : run graph (.ofLiveness graph live) = (after, merged, events)) :
    (∃ merges renamed, Merges graph (.ofLiveness graph live) merges renamed merged ∧
      merges.length ≤ copyCount graph ∧ after = removeSelfCopies renamed) ∧
    ((∃ visits later, Liveness.analysis.solve after visits = .ok later) ∧
      ∀ visits later, Liveness.analysis.solve after visits = .ok later →
        ∀ left right, (Interference.ofLiveness after later).Adjacent left right →
          merged.Adjacent left right) ∧
    (∀ var, var ∈ after.vars ∨ var ∈ after.operands → var ∈ merged.nodes) ∧
    (after.params = graph.params ∧ ∃ change : String → String,
      (∀ param ∈ graph.paramNames, change param = param) ∧
        after = removeSelfCopies (graph.mapVars change)) ∧
    (∀ instr ∈ after.instrs, ∀ dest source, copySides? instr = some (dest, source) →
      dest ≠ source ∧ ((dest ∈ graph.paramNames ∧ source ∈ graph.paramNames) ∨
        merged.Adjacent dest source)) ∧
    ∀ machine, graph.Refines machine after := by
  have wellFormed : graph.WellFormed := (FlowGraph.builtFrom_of_build built).wellFormed
    fun block member instr inBody => unmerged block member instr (Block.mem_of_mem_body inBody)
  obtain ⟨renamed, merges, isRun, isAfter⟩ := exists_of_run coalesced
  obtain ⟨areMerged, few⟩ := merges_mergeCopies List.countP_le_length isRun
  have stuck := areMerged.nextMerge?_eq_none
  obtain ⟨change, isCoalesced⟩ := exists_coalesced graph.instructionCount graph
    (Interference.covers_ofLiveness graph live).simple
  rw [isRun] at isCoalesced
  obtain rfl := isCoalesced.graph_eq
  -- The rest is about one change of names, the one that the merges come to.
  have after_eq : after = renewedGraph change id graph :=
    isAfter.trans (removeSelfCopies_mapVars change graph)
  obtain ⟨params_eq, formed⟩ := coalesced_wellFormed wellFormed unmerged change
  refine ⟨⟨merges, _, areMerged, few, isAfter⟩, ⟨?_, fun more later solvedLater => ?_⟩,
    fun var isVar => ?_, ⟨?_, change, isCoalesced.params, isAfter⟩, ?_, fun machine => ?_⟩
  · -- Blocks lead where they led, so the result has few enough edges for the analysis to converge.
    have lengths : ∀ block ∈ after.blocks, block.successors.length ≤ 2 := by
      rw [after_eq]
      intro image member
      obtain ⟨block, isBlock, rfl⟩ := List.mem_map.1 member
      rw [(renewedBlock_spec (wellFormed.blocks block isBlock) (unmerged block isBlock) ..).1]
      exact FlowGraph.length_successors_le built isBlock
    exact ⟨_, (Liveness.climbs after).exists_solution (after_eq ▸ formed.nonempty)
      (FlowGraph.length_edges_le lengths) le_rfl⟩
  · rw [after_eq] at solvedLater ⊢
    exact within_merged wellFormed unmerged isCoalesced solved solvedLater
  · rw [after_eq] at isVar
    exact mem_nodes_of_coalesced isCoalesced isVar
  · rw [after_eq, params_eq]
  · intro instr inside dest source sides
    rw [isAfter] at inside
    obtain ⟨block, member, inside⟩ := List.mem_flatMap.1 inside
    obtain ⟨original, isOriginal, rfl⟩ := List.mem_map.1 member
    obtain ⟨isInstr, isKept⟩ := List.mem_filter.1 inside
    have apart : dest ≠ source := by
      rintro rfl
      rw [isSelfCopy_iff_copySides?.2 ⟨dest, sides⟩] at isKept
      cases isKept
    exact ⟨apart, (sides_of_nextMerge?_eq_none stuck (List.mem_flatMap.2 ⟨original, isOriginal, isInstr⟩)
      sides).resolve_left apart⟩
  · rw [after_eq]
    exact refines_renewedGraph wellFormed unmerged solved
      (fit_of_coalesced isCoalesced wellFormed.nodup_params unmerged) machine

/-- Of the four copies of the loop that hands on numbers two are merged; the numbers that are handed on
stay apart, and so do the last one and the sum. -/
theorem run_coalesces_handOn : ∃ graph log live after merged events,
    FlowGraph.build handOn = .ok (graph, log) ∧ Liveness.analysis.solve graph 100 = .ok live ∧
      run graph (.ofLiveness graph live) = (after, merged, events) ∧
      after.instrs.filterMap copySides? = [("a", "b"), ("b", "sum")] ∧
      (("a" ∈ graph.paramNames ∧ "b" ∈ graph.paramNames) ∨ merged.Adjacent "a" "b") ∧
      ∀ machine, graph.Refines machine after := by
  obtain ⟨graph, log, live, built, unmerged, solved, copies⟩ : ∃ graph log live,
      FlowGraph.build handOn = .ok (graph, log) ∧
      (∀ block ∈ graph.blocks, ∀ instr ∈ block.instrs, instr.isPhi = false) ∧
      Liveness.analysis.solve graph 100 = .ok live ∧
      (run graph (.ofLiveness graph live)).1.instrs.filterMap copySides? =
        [("a", "b"), ("b", "sum")] := ⟨_, _, _, rfl, by decide, rfl, by decide +kernel⟩
  obtain ⟨_, _, _, _, exhausted, refines⟩ := run_coalesces built unmerged solved rfl
  refine ⟨graph, log, live, _, _, _, built, solved, rfl, copies, ?_, refines⟩
  obtain ⟨instr, inside, sides⟩ := List.mem_filterMap.1 (copies ▸ List.mem_cons_self ..)
  exact (exhausted instr inside "a" "b" sides).2

end Coalescing

end Midend
