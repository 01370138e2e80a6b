import Mathlib.Algebra.GroupWithZero.Nat
import Mathlib.Algebra.Order.BigOperators.Group.List
import Mathlib.Algebra.Order.Group.Nat
import Midend.Proofs.FlowGraph.SplitEdge
import Midend.Proofs.Semantics.Liveness
import Midend.Proofs.Ssa.ParallelCopies

/-! # Correctness of the way out of single assignment

Edges into merges from blocks with several successors are split, one after another; then the merges
of a block are copies at the ends of the blocks that lead to it, which lead nowhere else. The
conversion fails only when keys run out (`Ssa.destruct_cases`), leaves no merge, and the flow graph
does what it did (`Ssa.Destructed.refines`). -/

namespace Midend

namespace FlowGraph

/-! ## Critical edges -/

/-- An edge into merges from a block that leads to other blocks too. -/
def Critical (graph : FlowGraph) (source target : String) : Prop :=
  graph.Leads source target ∧ 1 < (graph.successorsOf source).length ∧
    ∃ block ∈ graph.blocks, block.name = target ∧ block.phis ≠ []

/-- The successors of the block of a name. -/
theorem successorsOf_eq {graph : FlowGraph} (nodup : graph.names.Nodup) {block : Block}
    (member : block ∈ graph.blocks) : graph.successorsOf block.name = block.successors := by
  rw [successorsOf, (find?_eq_some_iff nodup).2 ⟨member, rfl⟩]

/-- Splitting an edge makes no other edge critical. -/
theorem EdgeSplit.critical {graph after : FlowGraph} {source target : String} {middle : Block}
    (split : EdgeSplit graph source target middle after) (wellFormed : graph.WellFormed)
    {other onward : String} (critical : after.Critical other onward) :
    graph.Critical other onward ∧ (other, onward) ≠ (source, target) := by
  obtain ⟨leads, several, block, member, rfl, merges⟩ := critical
  have nodup := split.nodup_names wellFormed.nodup_names
  rcases (split.leads_iff wellFormed).1 leads with ⟨_, isMiddle⟩ | ⟨rfl, _⟩ | ⟨leads, apart⟩
  · -- The new block has no merges.
    have same := List.inj_on_of_nodup_map nodup member (split.mem_blocks.2 (.inl rfl)) isMiddle
    exact absurd (same ▸ split.middle_spec.2.2) merges
  · -- The new block leads to one block only.
    rw [successorsOf_eq nodup (split.mem_blocks.2 (.inl rfl)), split.middle_spec.2.1] at several
    exact absurd several (Nat.lt_irrefl 1)
  · obtain ⟨upper, found, _⟩ := FlowGraph.leads_iff.1 leads
    obtain ⟨inside, rfl⟩ := (find?_eq_some_iff wellFormed.nodup_names).1 found
    have several' := successorsOf_eq nodup (split.mem_blocks.2 (.inr ⟨upper, inside, rfl⟩))
    rw [name_detour] at several'
    rw [several', split.length_successors wellFormed inside] at several
    refine ⟨⟨leads, by rwa [successorsOf_eq wellFormed.nodup_names inside], ?_⟩,
      fun same => apart (Prod.mk.inj same)⟩
    rcases split.mem_blocks.1 member with rfl | ⟨original, isOriginal, rfl⟩
    · exact absurd split.middle_spec.2.2 merges
    · refine ⟨original, isOriginal, rfl, fun empty => merges ?_⟩
      rw [detour, Block.phis_relabel, empty, List.map_nil]

/-- The labels of all merges. -/
def mergeLabels (graph : FlowGraph) : List String :=
  graph.blocks.flatMap fun block => block.phis.flatMap Instr.labels

/-- Splitting an edge keeps the number of labels of merges. -/
theorem EdgeSplit.length_mergeLabels {graph after : FlowGraph} {source target : String}
    {middle : Block} (split : EdgeSplit graph source target middle after) :
    after.mergeLabels.length = graph.mergeLabels.length := by
  obtain ⟨front, back, _, blocks, blocks_eq⟩ := split.exists_blocks
  have same : ∀ list : List Block,
      ((list.map (detour source target middle.name)).flatMap fun block =>
        block.phis.flatMap Instr.labels).length =
      (list.flatMap fun block => block.phis.flatMap Instr.labels).length := by
    intro list
    rw [List.flatMap_map, List.length_flatMap, List.length_flatMap]
    congr 1
    refine List.map_congr_left fun block _ => ?_
    rw [detour, Block.phis_relabel, List.flatMap_map, List.length_flatMap, List.length_flatMap]
    congr 1
    refine List.map_congr_left fun phi _ => ?_
    obtain ⟨change, relabelled⟩ := Instr.exists_relabel_eq phi _ _
    rw [relabelled, Instr.labels_mapLabels, List.length_map]
  rw [mergeLabels, mergeLabels, blocks, blocks_eq, List.flatMap_append, List.flatMap_cons,
    split.middle_spec.2.2, List.flatMap_nil, List.nil_append, List.length_append, same, same,
    ← List.length_append, ← List.flatMap_append]

/-- Edges split one after another. -/
inductive SplitSeries : FlowGraph → FlowGraph → Prop where
  /-- No edge is split. -/
  | refl (graph : FlowGraph) : SplitSeries graph graph
  /-- An edge is split, and then others. -/
  | step {graph middle after : FlowGraph} {source target : String} {block : Block} :
      EdgeSplit graph source target block middle → SplitSeries middle after →
        SplitSeries graph after

/-- What splitting an edge keeps, splitting several keeps. -/
theorem SplitSeries.induct {graph after : FlowGraph} (series : SplitSeries graph after)
    (holds : FlowGraph → Prop)
    (step : ∀ {graph middle source target block}, EdgeSplit graph source target block middle →
      holds graph → holds middle) (held : holds graph) : holds after := by
  induction series with
  | refl graph => exact held
  | step split _ restIH => exact restIH (step split held)

/-- A flow graph without its leading merges. -/
def withoutPhis (graph : FlowGraph) : FlowGraph :=
  { graph with blocks := graph.blocks.map fun block => { block with instrs := block.body } }

/-- Without leading merges, blocks keep their names. -/
theorem names_withoutPhis (graph : FlowGraph) : graph.withoutPhis.names = graph.names := by
  rw [names, withoutPhis, List.map_map]
  rfl

end FlowGraph

namespace Ssa

/-- The critical edges to a block, by the labels of its merges. -/
def criticalTo (graph : FlowGraph) (block : Block) : List (String × String) :=
  ((block.phis.flatMap Instr.labels).filter fun label =>
    1 < (graph.successorsOf label).length).map fun label => (label, block.name)

/-- The labels of the merges of a block are the blocks that lead to it, if there are merges. -/
theorem mem_labels_iff {graph : FlowGraph} (wellFormed : graph.WellFormed) (fit : graph.PhisFit)
    {block : Block} (member : block ∈ graph.blocks) {label : String} :
    label ∈ block.phis.flatMap Instr.labels ↔ graph.Leads label block.name ∧ block.phis ≠ [] := by
  rw [List.mem_flatMap]
  constructor
  · rintro ⟨phi, isPhi, isLabel⟩
    exact ⟨(fit.mem_labels wellFormed.nodup_names member isPhi).1 isLabel,
      List.ne_nil_of_mem isPhi⟩
  · rintro ⟨leads, merges⟩
    obtain ⟨phi, isPhi⟩ := List.exists_mem_of_ne_nil _ merges
    exact ⟨phi, isPhi, (fit.mem_labels wellFormed.nodup_names member isPhi).2 leads⟩

/-- Where merges name predecessors, the critical edges are found. -/
theorem criticalEdges_eq {graph : FlowGraph} (wellFormed : graph.WellFormed)
    (fit : graph.PhisFit) :
    criticalEdges graph = .ok (graph.blocks.map (criticalTo graph)).flatten.eraseDups := by
  refine Attempt.bind_eq_ok.2 ⟨graph.blocks.map (criticalTo graph), Attempt.mapM_eq_ok.2 ?_, rfl⟩
  rw [List.forall₂_map_right_iff]
  refine List.forall₂_same.2 fun block member => ?_
  have none : (block.phis.flatMap Instr.labels).find? (fun label =>
      !(graph.predecessorsOf block.name).contains label) = none := by
    rw [List.find?_eq_none]
    intro label isLabel
    have isSource := (FlowGraph.mem_predecessorsOf_iff_leads wellFormed.nodup_names).2
      ((mem_labels_iff wellFormed fit member).1 isLabel).1
    simpa using isSource
  dsimp only
  rw [none]
  rfl

/-- The edges to be split are the critical ones, where merges name predecessors. -/
theorem exists_criticalEdges {graph : FlowGraph} (wellFormed : graph.WellFormed)
    (fit : graph.PhisFit) :
    ∃ edges, criticalEdges graph = .ok edges ∧ edges.Nodup ∧
      edges.length ≤ graph.mergeLabels.length ∧
      ∀ source target, (source, target) ∈ edges ↔ graph.Critical source target := by
  refine ⟨_, criticalEdges_eq wellFormed fit, nodup_eraseDups _, ?_, fun source target => ?_⟩
  · refine ((nodup_eraseDups _).subperm fun _ => List.mem_eraseDups.1).length_le.trans ?_
    rw [FlowGraph.mergeLabels, List.flatten_eq_flatMap, List.flatMap_map, List.length_flatMap,
      List.length_flatMap]
    refine List.sum_le_sum fun block _ => ?_
    simp only [criticalTo, id, List.length_map]
    exact List.length_filter_le _ _
  · rw [List.mem_eraseDups, List.mem_flatten]
    simp only [List.mem_map, criticalTo]
    constructor
    · rintro ⟨_, ⟨block, member, rfl⟩, inside⟩
      obtain ⟨label, ⟨isLabel, several⟩, rfl, rfl⟩ := by
        simpa only [List.mem_map, List.mem_filter, decide_eq_true_eq, Prod.mk.injEq] using inside
      obtain ⟨leads, merges⟩ := (mem_labels_iff wellFormed fit member).1 isLabel
      exact ⟨leads, several, block, member, rfl, merges⟩
    · rintro ⟨leads, several, block, member, rfl, merges⟩
      refine ⟨_, ⟨block, member, rfl⟩, List.mem_map.2 ⟨source, List.mem_filter.2 ⟨?_, ?_⟩, rfl⟩⟩
      · exact (mem_labels_iff wellFormed fit member).2 ⟨leads, merges⟩
      · simpa using several

/-- Edges are split unless keys run out. -/
theorem splitEdges_cases {graph : FlowGraph} (wellFormed : graph.WellFormed)
    {edges : List (String × String)} (nodup : edges.Nodup)
    (areEdges : ∀ source target, (source, target) ∈ edges → graph.Leads source target)
    (all : ∀ source target, graph.Critical source target → (source, target) ∈ edges) :
    (∃ after log, splitEdges graph edges = .ok (after, log) ∧ graph.SplitSeries after ∧
      after.nextKey = graph.nextKey + edges.length ∧
      after.blocks.length = graph.blocks.length + edges.length ∧
      ∀ source target, ¬after.Critical source target) ∨
    (splitEdges graph edges = .error .keysExhausted ∧
      keyLimit ≤ graph.nextKey + edges.length) := by
  induction edges generalizing graph with
  | nil =>
    exact .inl ⟨graph, [], rfl, .refl graph, rfl, rfl, fun source target critical => by
      cases all source target critical⟩
  | cons edge rest restIH =>
    obtain ⟨source, target⟩ := edge
    obtain ⟨notMem, nodupRest⟩ := List.nodup_cons.1 nodup
    rw [splitEdges, List.length_cons]
    rcases FlowGraph.splitEdge_cases wellFormed (areEdges source target (List.mem_cons_self ..)) with
      ⟨block, middle, isSplit, split⟩ | ⟨failed, exhausted⟩
    · have leadsRest : ∀ other onward, (other, onward) ∈ rest → middle.Leads other onward := by
        intro other onward member
        refine (split.leads_iff wellFormed).2 (.inr (.inr
          ⟨areEdges other onward (List.mem_cons_of_mem _ member), ?_⟩))
        rintro ⟨rfl, rfl⟩
        exact notMem member
      -- Splitting an edge makes no other edge critical, so the rest of the list still has them all.
      have allRest : ∀ other onward, middle.Critical other onward → (other, onward) ∈ rest := by
        intro other onward critical
        obtain ⟨critical, apart⟩ := split.critical wellFormed critical
        exact (List.mem_cons.1 (all other onward critical)).resolve_left apart
      rw [isSplit, Attempt.ok_bind]
      dsimp only
      rcases restIH (split.wellFormed_after wellFormed) nodupRest leadsRest allRest with
        ⟨after, log, areSplit, series, nextKey, blocks, uncritical⟩ | ⟨failed, exhausted⟩
      · rw [areSplit, Attempt.ok_bind]
        rw [split.nextKey_eq] at nextKey
        rw [split.length_blocks] at blocks
        exact .inl ⟨after, _, rfl, .step split series, by omega, by omega, uncritical⟩
      · rw [failed]
        rw [split.nextKey_eq] at exhausted
        exact .inr ⟨rfl, by omega⟩
    · exact .inr ⟨by rw [failed]; rfl, by omega⟩

/-! ## The copies of a block -/

/-- Copies that stand for merges entered from a block, one for each of them. -/
def Feeds (source : String) : List Instr → List Copy → Prop :=
  List.Forall₂ fun phi copy => phi.dest? = some copy.dest ∧
    phi.incoming.lookup source = some copy.src

/-- The copy that stands for a merge entered from a block. -/
def copyFrom (source : String) (phi : Instr) : Option Copy :=
  match phi.dest?, phi.ty?, phi.incoming.lookup source with
  | some dest, some ty, some src => some ⟨dest, src, ty⟩
  | _, _, _ => none

/-- A list of pairs with distinct keys has one pair for a key at most. -/
theorem filter_fst_eq {β : Type} {list : List (String × β)} (nodup : (list.map Prod.fst).Nodup)
    (key : String) :
    list.filter (fun pair => pair.1 = key) =
      ((list.lookup key).map fun value => (key, value)).toList := by
  induction list with
  | nil => rfl
  | cons pair rest restIH =>
    obtain ⟨other, value⟩ := pair
    rw [List.map_cons, List.nodup_cons] at nodup
    rw [List.filter_cons, List.lookup_cons]
    by_cases same : other = key
    · subst same
      have none : rest.filter (fun pair => pair.1 = other) = [] := by
        rw [List.filter_eq_nil_iff]
        intro pair member isOther
        exact nodup.1 (List.mem_map.2 ⟨pair, member, of_decide_eq_true isOther⟩)
      simp [none]
    · have apart : (key == other) = false := beq_eq_false_iff_ne.2 (Ne.symm same)
      simp only [same, decide_false, Bool.false_eq_true, if_false, apart]
      exact restIH nodup.2

/-- A merge has a destination and a type. -/
theorem exists_dest_of_isPhi {phi : Instr} (isPhi : phi.isPhi = true) :
    ∃ dest ty, phi.dest? = some dest ∧ phi.ty? = some ty := by
  unfold Instr.isPhi at isPhi
  split at isPhi
  · rename_i dest ty _ action
    exact ⟨dest, ty, by rw [Instr.dest?, action]; rfl, by rw [Instr.ty?, action]; rfl⟩
  · cases isPhi

/-- The copies that the merges of a block stand for at the end of another one. -/
theorem filter_copiesOf {block : Block}
    (nodup : ∀ phi ∈ block.phis, (phi.incoming.map Prod.fst).Nodup) (source : String) :
    ((copiesOf block).filter fun entry => entry.1 = source).map Prod.snd =
      block.phis.filterMap (copyFrom source) := by
  have merges : ∀ phi ∈ block.phis, phi.isPhi = true := fun _ => Block.isPhi_of_mem_phis
  rw [copiesOf]
  generalize block.phis = phis at nodup merges ⊢
  induction phis with
  | nil => rfl
  | cons phi rest restIH =>
    obtain ⟨dest, ty, isDest, isTy⟩ := exists_dest_of_isPhi (merges phi (List.mem_cons_self ..))
    have here : ((phi.incoming.map fun entry : String × String =>
        (entry.1, (⟨dest, entry.2, ty⟩ : Copy))).filter fun entry => entry.1 = source).map Prod.snd =
        (copyFrom source phi).toList := by
      rw [List.filter_map, List.map_map]
      have found := filter_fst_eq (nodup phi (List.mem_cons_self ..)) source
      change ((phi.incoming.filter fun pair => decide (pair.1 = source)).map _) = _
      rw [found, copyFrom, isDest, isTy]
      cases phi.incoming.lookup source <;> rfl
    rw [List.flatMap_cons, List.filter_append, List.map_append,
      restIH (fun phi member => nodup phi (List.mem_cons_of_mem _ member))
        fun phi member => merges phi (List.mem_cons_of_mem _ member), List.filterMap_cons]
    rw [isDest, isTy]
    change (((phi.incoming.map fun entry : String × String =>
        (entry.1, (⟨dest, entry.2, ty⟩ : Copy))).filter fun entry => entry.1 = source).map
          Prod.snd) ++ _ = _
    rw [here]
    cases copyFrom source phi <;> rfl

/-- Labels of a merge that fits, and how many there are. -/
theorem nodup_incoming {graph : FlowGraph} (wellFormed : graph.WellFormed) (fit : graph.PhisFit)
    {block : Block} (member : block ∈ graph.blocks) {phi : Instr} (isPhi : phi ∈ block.phis) :
    phi.incoming.map Prod.fst = phi.labels ∧ phi.labels.Nodup := by
  have checked := (wellFormed.blocks block member).checked phi (Block.mem_of_mem_phis isPhi)
  have length : phi.labels.length ≤ phi.args.length := by
    have isMerge := Block.isPhi_of_mem_phis isPhi
    unfold Instr.isPhi at isMerge
    split at isMerge
    · rename_i action
      obtain ⟨_, _, operandsFit⟩ := (Instr.checked_compute_iff action).1 checked
      rw [Instr.labels, Instr.args, action]
      exact Nat.le_of_eq (operandsFit.labels_args rfl)
    · cases isMerge
  exact ⟨List.map_fst_zip length, (fit block member phi isPhi).nodup_iff.2
    (FlowGraph.nodup_predecessorsOf wellFormed.nodup_names _)⟩

/-- A merge that fits has a copy for every block that leads to it, and for no other. -/
theorem copyFrom_cases {graph : FlowGraph} (wellFormed : graph.WellFormed) (fit : graph.PhisFit)
    {block : Block} (member : block ∈ graph.blocks) {phi : Instr} (isPhi : phi ∈ block.phis)
    (source : String) :
    (graph.Leads source block.name ∧ ∃ copy, copyFrom source phi = some copy ∧
      phi.dest? = some copy.dest ∧ phi.incoming.lookup source = some copy.src) ∨
    (¬graph.Leads source block.name ∧ copyFrom source phi = none) := by
  obtain ⟨dest, ty, isDest, isTy⟩ := exists_dest_of_isPhi (Block.isPhi_of_mem_phis isPhi)
  obtain ⟨keys, _⟩ := nodup_incoming wellFormed fit member isPhi
  rw [← fit.mem_labels wellFormed.nodup_names member isPhi, ← keys]
  cases found : phi.incoming.lookup source with
  | some src =>
    refine .inl ⟨List.mem_map.2 ⟨_, Instr.mem_of_lookup found, rfl⟩, ⟨dest, src, ty⟩, ?_, isDest, rfl⟩
    rw [copyFrom, isDest, isTy, found]
  | none =>
    refine .inr ⟨fun isKey => ?_, by rw [copyFrom, isDest, isTy, found]⟩
    obtain ⟨pair, inside, rfl⟩ := List.mem_map.1 isKey
    have absent := List.lookup_eq_none_iff.1 found pair inside
    simp at absent

/-- The copies at the end of a block are those for the merges of all blocks. -/
theorem getD_copiesByBlock {graph : FlowGraph} (wellFormed : graph.WellFormed) (fit : graph.PhisFit)
    (source : String) :
    (copiesByBlock graph).getD source [] =
      graph.blocks.flatMap fun block => block.phis.filterMap (copyFrom source) := by
  have grouped := SortedMap.getD_group (graph.blocks.flatMap copiesOf) .empty source
  rw [copiesByBlock]
  refine grouped.trans ?_
  rw [List.filter_flatMap, List.map_flatMap]
  change [] ++ _ = _
  rw [List.nil_append]
  refine List.flatMap_congr fun block member => filter_copiesOf (fun phi isPhi => ?_) source
  obtain ⟨keys, nodup⟩ := nodup_incoming wellFormed fit member isPhi
  rwa [keys]

/-- Where no edge is critical, the copies at the end of a block stand for the merges of any block that
it leads to: if that has merges, it is the only one. -/
theorem feeds_of_leads {graph : FlowGraph} (wellFormed : graph.WellFormed) (fit : graph.PhisFit)
    (uncritical : ∀ source target, ¬graph.Critical source target) {source : String}
    {block : Block} (member : block ∈ graph.blocks) (leads : graph.Leads source block.name) :
    Feeds source block.phis ((copiesByBlock graph).getD source []) := by
  -- Another block that it leads to has no merges, else the edge would be critical.
  have others : ∀ other ∈ graph.blocks, other ≠ block →
      other.phis.filterMap (copyFrom source) = [] := by
    intro other isOther distinct
    rw [List.filterMap_eq_nil_iff]
    intro phi isPhi
    rcases copyFrom_cases wellFormed fit isOther isPhi source with ⟨leadsOther, _⟩ | ⟨_, none⟩
    · refine absurd ⟨leadsOther, ?_, other, isOther, rfl, List.ne_nil_of_mem isPhi⟩
        (uncritical source other.name)
      have apart : other.name ≠ block.name := fun same =>
        distinct (List.inj_on_of_nodup_map wellFormed.nodup_names isOther member same)
      revert leads leadsOther
      unfold FlowGraph.Leads
      rcases graph.successorsOf source with _ | ⟨first, _ | ⟨second, rest⟩⟩
      · exact fun impossible => nomatch impossible
      · intro isBlock isOther
        exact absurd ((List.mem_singleton.1 isOther).trans (List.mem_singleton.1 isBlock).symm) apart
      · intro _ _
        rw [List.length_cons, List.length_cons]
        omega
    · exact none
  have own : Feeds source block.phis (block.phis.filterMap (copyFrom source)) := by
    have all : ∀ phi ∈ block.phis, ∃ copy, copyFrom source phi = some copy ∧
        phi.dest? = some copy.dest ∧ phi.incoming.lookup source = some copy.src :=
      fun phi isPhi => (copyFrom_cases wellFormed fit member isPhi source).elim
        (fun found => found.2) fun notFound => absurd leads notFound.1
    generalize block.phis = phis at all ⊢
    induction phis with
    | nil => exact .nil
    | cons phi rest restIH =>
      obtain ⟨copy, found, facts⟩ := all phi (List.mem_cons_self ..)
      rw [List.filterMap_cons_some found]
      exact .cons facts (restIH fun phi inRest => all phi (List.mem_cons_of_mem _ inRest))
  obtain ⟨front, back, split⟩ := List.append_of_mem member
  have nodup := List.Nodup.of_map Block.name wellFormed.nodup_names
  rw [getD_copiesByBlock wellFormed fit]
  rw [split, List.nodup_append] at nodup
  rw [split] at others
  have front_eq : (front.flatMap fun block => block.phis.filterMap (copyFrom source)) = [] := by
    rw [List.flatMap_eq_nil_iff]
    intro other inFront
    refine others other (List.mem_append_left _ inFront) ?_
    rintro rfl
    exact nodup.2.2 other inFront other (List.mem_cons_self ..) rfl
  have back_eq : (back.flatMap fun block => block.phis.filterMap (copyFrom source)) = [] := by
    rw [List.flatMap_eq_nil_iff]
    intro other inBack
    refine others other (List.mem_append_right _ (List.mem_cons_of_mem _ inBack)) ?_
    rintro rfl
    exact (List.nodup_cons.1 nodup.2.1).1 inBack
  rw [split, List.flatMap_append, List.flatMap_cons, front_eq, back_eq, List.nil_append,
    List.append_nil]
  exact own

/-- A block that leads nowhere gets no copies. -/
theorem getD_copiesByBlock_of_halt {graph : FlowGraph} (wellFormed : graph.WellFormed)
    (fit : graph.PhisFit) {source : String} (halts : ∀ target, ¬graph.Leads source target) :
    (copiesByBlock graph).getD source [] = [] := by
  rw [getD_copiesByBlock wellFormed fit, List.flatMap_eq_nil_iff]
  intro block member
  rw [List.filterMap_eq_nil_iff]
  intro phi isPhi
  exact (copyFrom_cases wellFormed fit member isPhi source).elim
    (fun found => absurd found.1 (halts _)) fun notFound => notFound.2

/-- Every copy is of a merge of some block. -/
theorem exists_of_mem_copies {graph : FlowGraph} (wellFormed : graph.WellFormed)
    (fit : graph.PhisFit) {source : String} {copy : Copy}
    (member : copy ∈ (copiesByBlock graph).getD source []) :
    ∃ block ∈ graph.blocks, ∃ phi ∈ block.phis, phi.dest? = some copy.dest ∧ copy.src ∈ phi.args := by
  rw [getD_copiesByBlock wellFormed fit] at member
  obtain ⟨block, inside, member⟩ := List.mem_flatMap.1 member
  obtain ⟨phi, isPhi, found⟩ := List.mem_filterMap.1 member
  rcases copyFrom_cases wellFormed fit inside isPhi source with
    ⟨_, other, foundOther, isDest, isSource⟩ | ⟨_, none⟩
  · obtain rfl := Option.some.inj (found.symm.trans foundOther)
    exact ⟨block, inside, phi, isPhi, isDest, Instr.mem_args_of_lookup isSource⟩
  · rw [none] at found
    cases found

/-- The blocks that get copies are named by merges, and there are as many copies as labels. -/
theorem copiesByBlock_spec {graph : FlowGraph} (wellFormed : graph.WellFormed)
    (fit : graph.PhisFit) :
    (∀ name ∈ (copiesByBlock graph).keys, name ∈ graph.names) ∧
      ((copiesByBlock graph).toList.map fun entry => entry.2.length).sum ≤
        graph.mergeLabels.length := by
  refine ⟨fun name isKey => ?_, ?_⟩
  · have isLabel := (SortedMap.mem_keys_group (graph.blocks.flatMap copiesOf) .empty name).1 isKey
    obtain ⟨entry, inside, rfl⟩ := List.mem_map.1 (isLabel.resolve_left nofun)
    obtain ⟨block, member, inside⟩ := List.mem_flatMap.1 inside
    obtain ⟨phi, isPhi, inside⟩ := List.mem_flatMap.1 inside
    split at inside
    · obtain ⟨pair, inIncoming, rfl⟩ := List.mem_map.1 inside
      exact FlowGraph.mem_names_of_leads_left ((fit.mem_labels wellFormed.nodup_names member
        isPhi).1 (List.of_mem_zip inIncoming).1)
    · cases inside
  · have grouped : (copiesByBlock graph).toList.flatMap Prod.snd |>.Perm
        ((graph.blocks.flatMap copiesOf).map Prod.snd) := SortedMap.group_perm _
    rw [← List.length_flatMap, grouped.length_eq, List.length_map, FlowGraph.mergeLabels,
      List.length_flatMap, List.length_flatMap]
    refine List.sum_le_sum fun block _ => ?_
    rw [copiesOf, List.length_flatMap, List.length_flatMap]
    refine List.sum_le_sum fun phi _ => ?_
    split
    · rw [List.length_map, Instr.incoming, List.length_zip]
      exact Nat.min_le_left ..
    · exact Nat.zero_le _

/-! ## Inserting the copies -/

/-- Inserting nothing changes nothing. -/
theorem insertAt_nil (block : Block) (position : Nat) : block.insertAt position [] = block := by
  simp [Block.insertAt]

/-- A flow graph with the copies of a list at the ends of its blocks, which have the given keys. -/
structure Inserted (graph : FlowGraph) (list : List (String × List Copy)) (after : FlowGraph)
    (keyed : String → List Instr) : Prop where
  /-- The function keeps its name. -/
  name_eq : after.name = graph.name
  /-- The parameters stay. -/
  params_eq : after.params = graph.params
  /-- A copy takes two keys at most. -/
  nextKey_le : after.nextKey ≤ graph.nextKey + 2 * (list.map fun entry => entry.2.length).sum
  /-- Each block gets its instructions. -/
  blocks_eq : after.blocks = graph.blocks.map fun block =>
    block.insertAt block.insertionPoint (keyed block.name)
  /-- A block without an entry gets none. -/
  unlisted : ∀ name, name ∉ list.map Prod.fst → keyed name = []
  /-- A block with an entry gets its copies, one after another. -/
  listed : ∀ name copies, (name, copies) ∈ list → ∃ supply,
    List.Forall₂ FlowGraph.Rekeyed (sequentialize copies supply).1 (keyed name)

namespace Inserted

variable {graph after : FlowGraph} {keyed : String → List Instr}

/-- Nothing is inserted. -/
theorem nil (graph : FlowGraph) : Inserted graph [] graph fun _ => [] := by
  refine ⟨rfl, rfl, Nat.le_refl _, ?_, fun _ _ => rfl, nofun⟩
  rw [List.map_congr_left, List.map_id]
  exact fun block _ => insertAt_nil block _

/-- The copies of one block are inserted before those of the others. -/
theorem cons {name : String} {copies : List Copy} {names : NameSupply}
    {rest : List (String × List Copy)} {here : List Instr}
    (notListed : name ∉ rest.map Prod.fst)
    (rekeyed : List.Forall₂ FlowGraph.Rekeyed (sequentialize copies names).1 here)
    (inserted : Inserted
      (({ graph with nextKey := graph.nextKey + (sequentialize copies names).1.length } :
        FlowGraph).modifyBlock name fun block => block.insertAt block.insertionPoint here)
      rest after keyed) :
    Inserted graph ((name, copies) :: rest) after (Function.update keyed name here) := by
  refine ⟨inserted.name_eq, inserted.params_eq, ?_, ?_, fun other absent => ?_,
    fun other others member => ?_⟩
  · have short := (sequentialize_spec copies names).1
    have few : after.nextKey ≤ graph.nextKey + (sequentialize copies names).1.length + _ :=
      inserted.nextKey_le
    rw [List.map_cons, List.sum_cons]
    dsimp only
    omega
  · rw [inserted.blocks_eq, FlowGraph.modifyBlock, List.map_map]
    refine List.map_congr_left fun block _ => ?_
    rw [Function.comp_apply]
    -- A block gets the copies of one entry only.
    by_cases same : block.name = name
    · rw [if_pos same, same, Function.update_self]
      change (block.insertAt block.insertionPoint here).insertAt _ (keyed block.name) = _
      rw [same, inserted.unlisted name notListed, insertAt_nil]
    · rw [if_neg same, Function.update_of_ne same]
  · rw [List.map_cons, List.mem_cons, not_or] at absent
    rw [Function.update_of_ne absent.1]
    exact inserted.unlisted other absent.2
  · rcases List.mem_cons.1 member with isHead | inRest
    · obtain ⟨rfl, rfl⟩ := Prod.mk.inj isHead
      exact ⟨names, by rwa [Function.update_self]⟩
    · rw [Function.update_of_ne]
      · exact inserted.listed other others inRest
      · rintro rfl
        exact notListed (List.mem_map.2 ⟨_, inRest, rfl⟩)

/-- A block gets what a table of copies has for it. -/
theorem exists_supply {copies : SortedMap String (List Copy)}
    (inserted : Inserted graph copies.toList after keyed) (name : String) :
    ∃ supply, List.Forall₂ FlowGraph.Rekeyed (sequentialize (copies.getD name []) supply).1
      (keyed name) := by
  cases found : copies.get? name with
  | some own =>
    rw [SortedMap.getD, found]
    exact inserted.listed name own (SortedMap.get?_eq_some_iff.1 found)
  | none =>
    have absent : name ∉ copies.keys := fun isKey => by
      obtain ⟨own, isFound⟩ := SortedMap.mem_keys.1 isKey
      rw [isFound] at found
      cases found
    rw [SortedMap.getD, found, inserted.unlisted name absent]
    exact ⟨.ofGraph graph, .nil⟩

end Inserted

/-- Copies are inserted at the ends of blocks unless keys run out. -/
theorem insertCopies_cases {graph : FlowGraph} {names : NameSupply}
    {list : List (String × List Copy)} (nodup : (list.map Prod.fst).Nodup)
    (known : ∀ name ∈ list.map Prod.fst, name ∈ graph.names) :
    (∃ after keyed, insertCopies graph names list = .ok after ∧ Inserted graph list after keyed) ∨
    (insertCopies graph names list = .error .keysExhausted ∧
      keyLimit ≤ graph.nextKey + 2 * (list.map fun entry => entry.2.length).sum) := by
  induction list generalizing graph names with
  | nil => exact .inl ⟨graph, _, rfl, .nil graph⟩
  | cons entry rest restIH =>
    obtain ⟨name, copies⟩ := entry
    rw [List.map_cons, List.nodup_cons] at nodup
    rw [insertCopies, List.map_cons, List.sum_cons]
    dsimp only
    have short := (sequentialize_spec copies names).1
    rcases graph.freshKeys_cases (sequentialize copies names).1 with
      ⟨here, given, rekeyed⟩ | ⟨failed, exhausted⟩
    · obtain ⟨block, found⟩ := FlowGraph.exists_find?_iff.2 (known name (List.mem_cons_self ..))
      have isBlock : ({ graph with nextKey := graph.nextKey + (sequentialize copies names).1.length } :
          FlowGraph).block name = .ok block := by
        rw [FlowGraph.block, FlowGraph.find?]
        rw [FlowGraph.find?] at found
        rw [found]
      rw [given, Attempt.ok_bind]
      dsimp only
      rw [isBlock, Attempt.ok_bind]
      -- Inserting into one block keeps all names, so the other blocks are found as before.
      have namesSame := FlowGraph.names_modifyBlock
        { graph with nextKey := graph.nextKey + (sequentialize copies names).1.length }
        (fun block => block.insertAt block.insertionPoint here) (fun _ => rfl) name
      rcases @restIH _ (sequentialize copies names).2 nodup.2 fun other member => by
          rw [namesSame]
          exact known other (List.mem_cons_of_mem _ member) with
        ⟨after, keyed, done, inserted⟩ | ⟨failed, exhausted⟩
      · exact .inl ⟨after, _, done, inserted.cons nodup.1 rekeyed⟩
      · refine .inr ⟨failed, ?_⟩
        change keyLimit ≤ graph.nextKey + (sequentialize copies names).1.length + _ at exhausted
        omega
    · exact .inr ⟨by rw [failed]; rfl, by omega⟩

/-! ## The conversion -/

/-- A flow graph whose merges are copies at the ends of the blocks that lead to them. -/
structure Lowered (graph after : FlowGraph) : Prop where
  /-- The function keeps its name. -/
  name_eq : after.name = graph.name
  /-- The parameters stay. -/
  params_eq : after.params = graph.params
  /-- Blocks lose their merges and get their copies, in order, before they end. -/
  blocks : List.Forall₂ (fun block image => image.name = block.name ∧
    ∃ middle terminator supply keyed, block.body = middle ++ [terminator] ∧
      image.instrs = (middle ++ keyed) ++ [terminator] ∧
      List.Forall₂ FlowGraph.Rekeyed
        (sequentialize ((copiesByBlock graph).getD block.name []) supply).1 keyed)
    graph.blocks after.blocks

/-- A flow graph out of single assignment: edges are split until none is critical, and then merges
are copies. -/
def Destructed (graph after : FlowGraph) : Prop :=
  ∃ middle, graph.SplitSeries middle ∧ (∀ source target, ¬middle.Critical source target) ∧
    Lowered middle after

/-- Copies are put before the instruction that ends a block. -/
theorem insertAt_insertionPoint {block : Block} {middle : List Instr} {terminator : Instr}
    (split : block.instrs = middle ++ [terminator]) (ends : terminator.isTerminator = true)
    (instrs : List Instr) :
    (block.insertAt block.insertionPoint instrs).instrs = (middle ++ instrs) ++ [terminator] := by
  have isEnd := Block.terminator?_of_split split ends
  rw [Block.insertAt, Block.insertionPoint, isEnd, split]
  simp

/-- The way out of single assignment succeeds unless keys run out. -/
theorem destruct_cases {graph : FlowGraph} (wellFormed : graph.WellFormed) (fit : graph.PhisFit) :
    (∃ after log, destruct graph = .ok (after, log) ∧ Destructed graph after ∧
      after.nextKey + after.blocks.length ≤
        graph.nextKey + graph.blocks.length + 4 * graph.mergeLabels.length) ∨
    (destruct graph = .error .keysExhausted ∧
      keyLimit ≤ graph.nextKey + 3 * graph.mergeLabels.length) := by
  obtain ⟨edges, isEdges, nodup, few, critical⟩ := exists_criticalEdges wellFormed fit
  rw [destruct, isEdges, Attempt.ok_bind]
  rcases splitEdges_cases wellFormed nodup
    (fun source target member => ((critical source target).1 member).1)
    (fun source target isCritical => (critical source target).2 isCritical) with
    ⟨middle, splits, areSplit, series, nextKey, blocks, uncritical⟩ | ⟨failed, exhausted⟩
  · -- Splitting edges keeps all that the next stage relies on, and the number of values merged.
    obtain ⟨formed, fits, count⟩ := series.induct (fun other => other.WellFormed ∧ other.PhisFit ∧
      other.mergeLabels.length = graph.mergeLabels.length)
      (fun split held => ⟨split.wellFormed_after held.1, split.phisFit held.1 held.2.1,
        split.length_mergeLabels.trans held.2.2⟩) ⟨wellFormed, fit, rfl⟩
    obtain ⟨known, total⟩ := copiesByBlock_spec formed fits
    rw [areSplit, Attempt.ok_bind]
    dsimp only
    rw [← FlowGraph.withoutPhis]
    rcases @insertCopies_cases middle.withoutPhis (.ofGraph _) (copiesByBlock middle).toList
      (copiesByBlock middle).nodup_keys
      (fun name isKey => middle.names_withoutPhis ▸ known name isKey) with
      ⟨after, keyed, done, inserted⟩ | ⟨failed, exhausted⟩
    · rw [done, Attempt.ok_bind]
      have bound : after.nextKey + after.blocks.length ≤
          graph.nextKey + graph.blocks.length + 4 * graph.mergeLabels.length := by
        have fewKeys : after.nextKey ≤ middle.nextKey + _ := inserted.nextKey_le
        rw [inserted.blocks_eq, List.length_map, FlowGraph.withoutPhis, List.length_map]
        omega
      refine .inl ⟨after, _, rfl, ⟨middle, series, uncritical, inserted.name_eq,
        inserted.params_eq, ?_⟩, bound⟩
      rw [inserted.blocks_eq, FlowGraph.withoutPhis, List.map_map, List.forall₂_map_right_iff]
      -- The copies stand right before the instruction that ends the block.
      refine List.forall₂_same.2 fun block member => ⟨rfl, ?_⟩
      obtain ⟨front, terminator, body_eq, _, _, ends⟩ := (formed.blocks block member).exists_body
      obtain ⟨supply, rekeyed⟩ := inserted.exists_supply block.name
      exact ⟨front, terminator, supply, _, body_eq, insertAt_insertionPoint body_eq ends _, rekeyed⟩
    · refine .inr ⟨by rw [failed]; rfl, ?_⟩
      change keyLimit ≤ middle.nextKey + _ at exhausted
      omega
  · exact .inr ⟨by rw [failed]; rfl, by omega⟩

/-! ## Shape -/

/-- An inserted copy is a well-formed instruction that neither ends a block nor merges. -/
theorem copy_spec {copies : List Copy} {supply : NameSupply} {keyed : List Instr}
    (rekeyed : List.Forall₂ FlowGraph.Rekeyed (sequentialize copies supply).1 keyed) {instr : Instr}
    (member : instr ∈ keyed) : instr.Checked ∧ instr.isLabel = false ∧ instr.isPhi = false ∧
      instr.isTerminator = false := by
  obtain ⟨original, inside, key, rfl⟩ := FlowGraph.exists_of_rekeyed rekeyed member
  obtain ⟨dest, ty, source, rfl⟩ := (sequentialize_spec copies supply).2 original inside
  exact ⟨Instr.checked_copy dest ty source, rfl, rfl, rfl⟩

namespace Lowered

variable {graph after : FlowGraph}

/-- No merge is left. -/
theorem unmerged (lowered : Lowered graph after) (wellFormed : graph.WellFormed) :
    ∀ block ∈ after.blocks, ∀ instr ∈ block.instrs, instr.isPhi = false := by
  intro image imageMember instr inside
  obtain ⟨block, member, _, middle, terminator, supply, keyed, body_eq, instrs_eq, rekeyed⟩ :=
    exists_of_forall₂_right lowered.blocks imageMember
  have formed := wellFormed.blocks block member
  rw [instrs_eq, List.mem_append, List.mem_append] at inside
  rcases inside with (inMiddle | isCopy) | isLast
  · exact formed.phis_first instr (by rw [body_eq]; exact List.mem_append_left _ inMiddle)
  · exact (copy_spec rekeyed isCopy).2.2.1
  · exact formed.phis_first instr (by rw [body_eq]; exact List.mem_append_right _ isLast)

/-- Names and edges of blocks stay. -/
theorem recoded (lowered : Lowered graph after) (wellFormed : graph.WellFormed) :
    graph.Recoded after := by
  have noMerge := lowered.unmerged wellFormed
  refine ⟨lowered.name_eq, lowered.params_eq, ?_⟩
  have inAfter : ∀ image ∈ after.blocks, ∀ instr ∈ image.body, instr.isPhi = false :=
    fun image member instr inBody => noMerge image member instr (Block.mem_of_mem_body inBody)
  refine (List.forall₂_iff_zip.2 ⟨lowered.blocks.length_eq, fun {block image} paired => ?_⟩)
  have member := (List.of_mem_zip paired).1
  obtain ⟨name_eq, middle, terminator, supply, keyed, body_eq, instrs_eq, rekeyed⟩ :=
    (List.forall₂_iff_zip.1 lowered.blocks).2 paired
  have formed := wellFormed.blocks block member
  obtain ⟨_, checked, ends, successors_eq, goesOn⟩ := formed.of_body_eq body_eq
  -- What holds of the body and of the copies holds of all that the image has: merges are gone.
  have fromBody : ∀ {holds : Instr → Prop}, (∀ instr ∈ block.body, holds instr) →
      (∀ instr ∈ keyed, holds instr) → ∀ instr ∈ image.instrs, holds instr := by
    intro holds old new instr inside
    rw [body_eq] at old
    rw [instrs_eq, List.mem_append, List.mem_append] at inside
    rcases inside with (inMiddle | isCopy) | isLast
    · exact old instr (List.mem_append_left _ inMiddle)
    · exact new instr isCopy
    · exact old instr (List.mem_append_right _ isLast)
  refine ⟨name_eq, ?_, ⟨_, _, instrs_eq, fun instr inside => ?_, ends⟩,
    fromBody (fun instr inside => (formed.plain_body instr inside).1)
      fun instr isCopy => (copy_spec rekeyed isCopy).1,
    fromBody (fun instr inside => (formed.plain_body instr inside).2.1)
      fun instr isCopy => (copy_spec rekeyed isCopy).2.1,
    inAfter image (List.of_mem_zip paired).2⟩
  · rw [Block.successors_of_terminator (Block.terminator?_of_split instrs_eq ends) checked ends,
      successors_eq]
  · rcases List.mem_append.1 inside with inMiddle | isCopy
    · exact goesOn instr inMiddle
    · exact (copy_spec rekeyed isCopy).2.2.2

end Lowered

end Ssa

end Midend
