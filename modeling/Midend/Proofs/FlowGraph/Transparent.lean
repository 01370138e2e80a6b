import Midend.Proofs.FlowGraph.Rebuild
import Midend.Proofs.FlowGraph.Rerouted

/-! # Transparent edits

A block on an edge and the removal of unreachable blocks change nothing but what they are for: the
edges that are led over the new block, and the blocks that no path from the entry reaches. What the
flow graph comes to when it is written out stays the same, wherever merges take their values from
(`FlowGraph.transparent_edits`). -/

namespace Midend

namespace FlowGraph

variable {graph after : FlowGraph}

/-! ## Merges of a flow graph that is built -/

/-- Every merge of the flow graph of a function names blocks of it. -/
theorem mem_names_of_merge {function : Func} {log : Log}
    (built : build function = .ok (graph, log)) {block : Block} (member : block ∈ graph.blocks)
    {phi : Instr} (inside : phi ∈ block.instrs) (isPhi : phi.isPhi = true) {label : String}
    (isLabel : label ∈ phi.labels) : label ∈ graph.names := by
  have inFunction : phi ∈ function.instrs := by
    rcases (builtFrom_of_build built).mem_instrs block member phi inside with
      found | ⟨_, action⟩ | action
    · exact found
    all_goals
      rw [Instr.isPhi, action] at isPhi
      cases isPhi
  obtain ⟨_, _, built⟩ := Attempt.bind_eq_ok.1 built
  obtain ⟨start, cutUp, built⟩ := Attempt.bind_eq_ok.1 built
  obtain ⟨_, labelled, built⟩ := Attempt.bind_eq_ok.1 built
  obtain ⟨⟨entry, entered⟩, added, built⟩ := Attempt.bind_eq_ok.1 built
  obtain ⟨⟨changed, finished⟩, terminated, built⟩ := Attempt.bind_eq_ok.1 built
  obtain ⟨rfl, _⟩ := Prod.mk.inj (Except.ok.inj built)
  have inStart : phi ∈ start.blocks.flatMap Block.instrs := by
    rw [flatMap_instrs_of_ofSegments cutUp, List.mem_filter]
    obtain ⟨_, _, _, isAction⟩ := Instr.exists_of_isPhi isPhi
    exact ⟨inFunction, by rw [Instr.isLabel, isAction]; rfl⟩
  obtain ⟨origin, originMember, atOrigin⟩ := List.mem_flatMap.1 inStart
  have known := checkPhiLabels_eq_ok_iff.1 labelled origin originMember phi atOrigin isPhi label isLabel
  rw [names_of_addTerminators terminated]
  rcases addEntry_cases added with ⟨rfl, _⟩ | ⟨_, _, _, _, _, _, rfl⟩
  · exact known
  · exact List.mem_cons_of_mem _ known

/-! ## Splitting an edge in place -/

/-- An operation on the flow graph at hand, which fails without changing it. -/
def inPlace {α : Type} (operation : FlowGraph → Except Error (α × FlowGraph)) :
    EStateM Error FlowGraph α := fun graph =>
  match operation graph with
  | .ok (answer, after) => .ok answer after
  | .error error => .error error graph

/-- The flow graph at hand is looked at. -/
theorem get_bind {α : Type} (rest : FlowGraph → EStateM Error FlowGraph α) (graph : FlowGraph) :
    (get >>= rest) graph = rest graph graph := rfl

/-- Leads the edges between two blocks of the flow graph at hand to a new block behind the source, one
change after another: what is changed before a failure stays changed. -/
def rerouteInPlace (source target : String) (place : Nat) : EStateM Error FlowGraph String := do
  let name ← modifyGet freshBlockName
  modify fun graph => graph.modifyBlock source
    (Block.mapTerminator (Instr.mapLabels (replaceName target name)))
  if !(← get).hasBlock target then throw (.unknownBlock target)
  modify fun graph => graph.modifyBlock target
    (Block.mapPhis (Instr.mapLabels (replaceName source name)))
  let key ← inPlace freshKey
  inPlace fun graph => do
    return ((), ← graph.insertBlock (place + 1) ⟨name, [(Instr.jmp target).withKey key]⟩)
  return name

/-- Puts a new block on the edges between two blocks of the flow graph at hand. -/
def splitEdgeInPlace (source target : String) : EStateM Error FlowGraph String := do
  let graph ← get
  let some place := graph.indexOf? source | throw (.unknownBlock source)
  if !graph.hasBlock target then throw (.unknownBlock target)
  if !(graph.successorsOf source).contains target then
    throw (.malformed ("No edge " ++ source ++ " -> " ++ target ++ " in '" ++ graph.name ++ "'"))
  rerouteInPlace source target place

/-- Once the target is known to be there, only want of keys keeps the edges from being led elsewhere. -/
theorem rerouteInPlace_cases {graph : FlowGraph} {target : String}
    (isTarget : graph.hasBlock target = true) (source : String) (place : Nat) :
    let split : Except Error (String × FlowGraph) := do
      let fresh ← (linked graph.freshBlockName.2 source target graph.freshBlockName.1).freshKey
      let after ← fresh.2.insertBlock (place + 1)
        ⟨graph.freshBlockName.1, [(Instr.jmp target).withKey fresh.1]⟩
      return (graph.freshBlockName.1, after)
    (∃ name after, split = .ok (name, after) ∧
      rerouteInPlace source target place graph = .ok name after) ∨
    ∃ left, split = .error .keysExhausted ∧
      rerouteInPlace source target place graph = .error .keysExhausted left := by
  have isThere : (graph.freshBlockName.2.modifyBlock source (Block.mapTerminator
      (Instr.mapLabels (replaceName target graph.freshBlockName.1)))).hasBlock target = true := by
    rw [hasBlock_iff, names_modifyBlock _ _ (Block.name_mapTerminator _)]
    exact hasBlock_iff.1 isTarget
  have names_eq := names_linked graph.freshBlockName.2 source target graph.freshBlockName.1
  -- Everything before the first step that can fail is evaluated.
  have run : rerouteInPlace source target place graph =
      EStateM.bind (inPlace freshKey)
        (fun key => EStateM.bind (inPlace fun graph' => do
            return ((), ← graph'.insertBlock (place + 1)
              ⟨graph.freshBlockName.1, [(Instr.jmp target).withKey key]⟩))
          fun _ => EStateM.pure graph.freshBlockName.1)
        (linked graph.freshBlockName.2 source target graph.freshBlockName.1) := by
    have named : ∀ change : FlowGraph → String × FlowGraph,
        (modifyGet change : EStateM Error FlowGraph String) =
          fun graph => .ok (change graph).1 (change graph).2 := fun _ => rfl
    have modified : ∀ change : FlowGraph → FlowGraph,
        (modify change : EStateM Error FlowGraph PUnit) = fun graph => .ok () (change graph) :=
      fun _ => rfl
    have current : (get : EStateM Error FlowGraph FlowGraph) = fun graph => .ok graph graph := rfl
    simp only [rerouteInPlace, bind, EStateM.bind, named, modified, current, isThere, Bool.not_true,
      Bool.false_eq_true, if_false]
    rfl
  rw [run]
  have fresh : graph.freshBlockName.1 ∉
      (linked graph.freshBlockName.2 source target graph.freshBlockName.1).names :=
    names_eq ▸ graph.freshBlockName_notMem
  generalize linked graph.freshBlockName.2 source target graph.freshBlockName.1 = marked at fresh
  generalize graph.freshBlockName.1 = name at fresh
  rcases marked.freshKey_cases with given | ⟨failed, _⟩
  · have inserted := @insertBlock_of_notMem { marked with nextKey := marked.nextKey + 1 }
      ⟨name, [(Instr.jmp target).withKey marked.nextKey]⟩ fresh (place + 1)
    refine .inl ⟨name, _, by rw [given, Attempt.ok_bind, inserted]; rfl, ?_⟩
    simp only [EStateM.bind, inPlace, given, inserted, Attempt.ok_bind]
    rfl
  · refine .inr ⟨marked, by rw [failed]; rfl, ?_⟩
    simp only [EStateM.bind, inPlace, failed]

/-- Changing the flow graph at hand comes to the same as making a new one. What fails, but for want of
keys, fails before the first change. -/
theorem splitEdgeInPlace_cases (graph : FlowGraph) (source target : String) :
    (∃ name after, graph.splitEdge source target = .ok (name, after) ∧
      splitEdgeInPlace source target graph = .ok name after) ∨
    ∃ error left, graph.splitEdge source target = .error error ∧
      splitEdgeInPlace source target graph = .error error left ∧
        (error ≠ .keysExhausted → left = graph) := by
  unfold splitEdge splitEdgeInPlace
  rw [get_bind]
  cases isIndex : graph.indexOf? source with
  | none => exact .inr ⟨_, graph, rfl, rfl, fun _ => rfl⟩
  | some place =>
    cases isTarget : graph.hasBlock target with
    | false => exact .inr ⟨_, graph, rfl, rfl, fun _ => rfl⟩
    | true =>
      cases hasEdge : (graph.successorsOf source).contains target with
      | false => exact .inr ⟨_, graph, rfl, rfl, fun _ => rfl⟩
      | true =>
        rcases rerouteInPlace_cases isTarget source place with
          ⟨name, after, split, run⟩ | ⟨left, split, run⟩
        · exact .inl ⟨name, after, split, run⟩
        · exact .inr ⟨_, left, split, run, fun other => absurd rfl other⟩

/-! ## Splitting an edge -/

/-- A flow graph with a new block on the edges between two blocks of another one. -/
structure OnEdge (graph : FlowGraph) (source target name : String) (after : FlowGraph) : Prop where
  /-- The name is new. -/
  fresh : name ∉ graph.names
  /-- The new block stands right behind the source and jumps to the target. The other blocks make way
  for it: the end of the source leads there, and leading merges of the target take from it what they
  took from the source. -/
  exists_blocks : ∃ front block back, block.name = source ∧ graph.blocks = front ++ block :: back ∧
    after = { graph with
      blocks := front.map (detour source target name) ++ detour source target name block ::
        ⟨name, [(Instr.jmp target).withKey graph.nextKey]⟩ :: back.map (detour source target name)
      nextKey := graph.nextKey + 1
      nextBlock := after.nextBlock }
  /-- The edges between the two are led over the new block, and the others stay. -/
  leads_iff : ∀ first second, after.Leads first second ↔ (first = source ∧ second = name) ∨
    (first = name ∧ second = target) ∨
      (graph.Leads first second ∧ ¬(first = source ∧ second = target))

/-- Why an edge is not split. -/
inductive Refuses (graph : FlowGraph) (source target : String) : Error → Prop where
  /-- The source is no block. -/
  | source : source ∉ graph.names → Refuses graph source target (.unknownBlock source)
  /-- The target is no block. -/
  | target : source ∈ graph.names → target ∉ graph.names →
      Refuses graph source target (.unknownBlock target)
  /-- The source does not lead to the target. -/
  | edge : source ∈ graph.names → target ∈ graph.names → ¬graph.Leads source target →
      Refuses graph source target (.malformed
        ("No edge " ++ source ++ " -> " ++ target ++ " in '" ++ graph.name ++ "'"))
  /-- There is no key for the jump. -/
  | keys : graph.Leads source target → keyLimit ≤ graph.nextKey + 1 →
      Refuses graph source target .keysExhausted

/-- An edge is split, or that is refused. -/
theorem splitEdge_cases_of_names (wellFormed : graph.WellFormed) (source target : String) :
    (graph.Leads source target ∧ graph.nextKey + 1 < keyLimit ∧ ∃ name after,
      graph.splitEdge source target = .ok (name, after) ∧ OnEdge graph source target name after) ∨
    ∃ error, graph.splitEdge source target = .error error ∧ Refuses graph source target error := by
  by_cases leads : graph.Leads source target
  · obtain ⟨name, front, block, back, nextBlock, fresh, named, isSource, isBlocks, split⟩ :=
      splitEdge_eq wellFormed leads
    rw [split]
    by_cases room : graph.nextKey + 1 < keyLimit
    · rw [if_pos room] at split ⊢
      -- The same split, described by the edges that it leaves.
      rcases splitEdge_cases wellFormed leads with ⟨middle, after, split', isSplit⟩ | ⟨failed, _⟩
      · obtain ⟨same, rfl⟩ := Prod.mk.inj (Except.ok.inj (split'.symm.trans split))
        exact .inl ⟨leads, room, _, _, rfl, fresh, ⟨front, block, back, isSource, isBlocks, rfl⟩,
          fun first second => same ▸ isSplit.leads_iff wellFormed⟩
      · cases failed.symm.trans split
    · rw [if_neg room]
      exact .inr ⟨_, rfl, .keys leads (Nat.not_lt.1 room)⟩
  · right
    unfold splitEdge
    cases isIndex : graph.indexOf? source with
    | none =>
      refine ⟨_, rfl, .source fun isName => ?_⟩
      obtain ⟨block, member, same⟩ := List.mem_map.1 isName
      rw [indexOf?, List.findIdx?_eq_none_iff] at isIndex
      simpa [same] using isIndex block member
    | some place =>
      have isSource : source ∈ graph.names := by
        obtain ⟨block, found, rfl⟩ := (indexOf?_eq_some_iff wellFormed.nodup_names).1 isIndex
        exact List.mem_map_of_mem (List.mem_of_getElem? found)
      cases isTarget : graph.hasBlock target with
      | false =>
        refine ⟨_, rfl, .target isSource ?_⟩
        rw [← hasBlock_iff, isTarget]
        exact Bool.false_ne_true
      | true =>
        have noEdge : (graph.successorsOf source).contains target = false := by
          rw [Bool.eq_false_iff, Ne, List.contains_iff_mem]
          exact leads
        simp only [noEdge]
        exact ⟨_, rfl, .edge isSource (hasBlock_iff.1 isTarget) leads⟩

/-- Runs take the new block where they passed the edge. -/
theorem EdgeSplit.rerouted {source target : String} {middle : Block}
    (split : EdgeSplit graph source target middle after) (wellFormed : graph.WellFormed)
    (known : ∀ block ∈ graph.blocks, ∀ phi ∈ block.phis, ∀ label ∈ phi.labels,
      label ∈ graph.names) :
    Rerouted graph after (detour source target middle.name)
      (fun block => if block.name = source then replaceName target middle.name else id)
      (fun block from' origin => block ∈ graph.blocks ∧
        (∀ name, from' = some name → name ∈ graph.names) ∧
        origin = from'.map (if block.name = target then replaceName source middle.name else id)) where
  params_eq := split.params_eq
  nodup_names := split.nodup_names wellFormed.nodup_names
  unlabelled := fun block member =>
    ((split.wellFormed_after wellFormed).blocks block member).unlabelled
  head_eq := split.head?_eq
  linked_first := fun first isFirst => ⟨List.mem_of_mem_head? isFirst, nofun, rfl⟩
  member := fun linked => ⟨linked.1, split.mem_blocks.2 (.inr ⟨_, linked.1, rfl⟩)⟩
  enter_eq := by
    rintro block from' origin ⟨member, isName, rfl⟩ env
    rw [detour, Block.phis_relabel]
    exact Instr.enter_relabel _ (fun _ => Block.isPhi_of_mem_phis) (fun name isSource phi isPhi label
      isLabel => split.eq_of_replaced_eq _ (known block member phi isPhi label isLabel)
        (isName name isSource)) env
  body_eq := by
    intro block member front terminator body_eq
    obtain ⟨front', terminator', body_eq', relabelled, _⟩ :=
      (wellFormed.blocks block member).exists_relabelled
        (if block.name = target then replaceName source middle.name else id)
        (if block.name = source then replaceName target middle.name else id)
    obtain ⟨rfl, same⟩ := List.append_inj' (body_eq.symm.trans body_eq') rfl
    obtain rfl := (List.cons.inj same).1
    exact relabelled
  onward := by
    rintro block from' origin next ⟨member, _, _⟩ inside leads
    have isName : ∀ name, some block.name = some name → name ∈ graph.names := by
      rintro name ⟨⟩
      exact List.mem_map_of_mem member
    rcases passes_or_stays source target middle.name block.name next.name with
      ⟨isSource, isTarget⟩ | ⟨sameTarget, sameSource⟩
    · refine .inr ⟨middle, split.mem_blocks.2 (.inl rfl), ?_, ?_, inside, isName, ?_⟩
      · rw [if_pos isSource, replaceName, if_pos isTarget]
      · rw [name_detour, isTarget]
        exact split.jumps
      · rw [if_pos isTarget, Option.map_some, replaceName, if_pos isSource]
    · exact .inl ⟨by rw [name_detour, sameTarget], inside, isName,
        by rw [name_detour, Option.map_some, sameSource]⟩

/-! ## Removing blocks -/

/-- Merges keep what they take from blocks that are not gone. -/
theorem enter_dropIncoming {gone : String → Bool} {phis : List Instr}
    (areMerges : ∀ phi ∈ phis, phi.isPhi = true) {source : Option String}
    (kept : ∀ name, source = some name → gone name = false) (env : Env) :
    Instr.enter (phis.map (dropIncoming gone)) source env = Instr.enter phis source env := by
  cases source with
  | none =>
    unfold Instr.enter
    rw [List.isEmpty_map]
    rfl
  | some source =>
    -- The label that is looked up is not dropped, so the first entry with it is the same.
    have isKept : ∀ list : List (String × String),
        (list.filter fun entry => !gone entry.1).lookup source = list.lookup source := by
      intro list
      induction list with
      | nil => rfl
      | cons entry rest restIH =>
        obtain ⟨label, arg⟩ := entry
        by_cases same : source = label
        · subst same
          rw [List.filter_cons_of_pos (by simp [kept source rfl]), List.lookup_cons_self,
            List.lookup_cons_self]
        · have differs : (source == label) = false := beq_eq_false_iff_ne.2 same
          rw [List.lookup_cons, differs, ← restIH, List.filter_cons]
          split
          · rw [List.lookup_cons, differs]
          · rfl
    rw [Instr.enter_some, Instr.enter_some, List.mapM_map]
    congr 1
    refine mapM_congr_left fun phi member => ?_
    obtain ⟨dest, ty, operands, isAction⟩ := Instr.exists_of_isPhi (areMerges phi member)
    have incoming : (dropIncoming gone phi).incoming =
        phi.incoming.filter fun entry => !gone entry.1 := by
      rw [Instr.incoming, Instr.labels, Instr.args, dropIncoming, Instr.withIncoming, isAction]
      exact (List.zip_map' ..).trans (List.map_id' _)
    have dest_eq : (dropIncoming gone phi).dest? = phi.dest? := by
      rw [Instr.dest?, Instr.dest?, dropIncoming, Instr.withIncoming, isAction]
      rfl
    rw [Function.comp_apply, Instr.select, Instr.select, incoming, dest_eq, isKept]

/-- The rest of a block that is kept, when what its merges take from blocks that are gone is dropped. -/
theorem mapPhis_dropIncoming {block : Block} (wellFormed : block.WellFormed) (gone : String → Bool) :
    (block.mapPhis (dropIncoming gone)).phis = block.phis.map (dropIncoming gone) ∧
      (block.mapPhis (dropIncoming gone)).body = block.body ∧
      (block.mapPhis (dropIncoming gone)).successors = block.successors := by
  have parts : (block.mapPhis (dropIncoming gone)).phis = block.phis.map (dropIncoming gone) ∧
      (block.mapPhis (dropIncoming gone)).body = block.body := by
    refine Block.phis_of_split rfl (fun image member => ?_) wellFormed.phis_first
    obtain ⟨phi, isPhi, rfl⟩ := List.mem_map.1 member
    obtain ⟨dest, ty, operands, isAction⟩ :=
      Instr.exists_of_isPhi (Block.isPhi_of_mem_phis isPhi)
    rw [Instr.isPhi, dropIncoming, Instr.withIncoming, isAction]
    rfl
  refine ⟨parts.1, parts.2, ?_⟩
  obtain ⟨middle, terminator, body_eq, split, _, ends⟩ := wellFormed.exists_body
  have split' : (block.mapPhis (dropIncoming gone)).instrs =
      (block.phis.map (dropIncoming gone) ++ middle) ++ [terminator] := by
    rw [List.append_assoc, ← body_eq]
    rfl
  rw [Block.successors, Block.successors, Block.terminator?_of_split split ends,
    Block.terminator?_of_split split' ends]

/-- Blocks with the same names and successors are reached alike. -/
theorem reachable_map_iff {image : Block → Block} (name_eq : ∀ block, (image block).name = block.name)
    (successors_eq : ∀ block ∈ graph.blocks, (image block).successors = block.successors)
    {name : String} :
    Reachable { graph with blocks := graph.blocks.map image } name ↔ graph.Reachable name := by
  have entry_eq : entryName { graph with blocks := graph.blocks.map image } = graph.entryName := by
    rw [entryName, entryName]
    cases graph.blocks with
    | nil => rfl
    | cons first rest => exact name_eq first
  have leads_eq : Leads { graph with blocks := graph.blocks.map image } = graph.Leads := by
    funext source target
    rw [Leads, Leads, successorsOf, successorsOf, find?, find?, List.find?_map]
    simp only [Function.comp_def, name_eq]
    cases found : graph.blocks.find? fun block => block.name == source with
    | none => rfl
    | some block =>
      rw [Option.map_some]
      dsimp only
      rw [successors_eq block (List.mem_of_find?_eq_some found)]
  rw [Reachable, Reachable, entry_eq, leads_eq]

section Keeping

variable {keep : Block → Bool} (wellFormed : graph.WellFormed)
  (kept : ∀ block ∈ graph.blocks, keep block = true ↔ graph.Reachable block.name)

include wellFormed kept

/-- But for what their merges take, the blocks that are kept are the reachable ones, under their
names. -/
theorem pruned_keeping :
    Pruned graph { graph with blocks := graph.blocks.filter keep } ∧
      (graph.keeping keep).names = names { graph with blocks := graph.blocks.filter keep } := by
  refine ⟨pruned_of_filter wellFormed rfl rfl rfl keep rfl kept, ?_⟩
  rw [names, names, keeping, List.map_map]
  rfl

/-- The blocks that are kept are all reachable, so that no more are removed. -/
theorem removeUnreachable_keeping :
    (graph.keeping keep).removeUnreachable = ([], graph.keeping keep) := by
  obtain ⟨pruned, names_eq⟩ := pruned_keeping wellFormed kept
  refine removeUnreachable_of_reachable (names_eq ▸ pruned.wellFormed.nodup_names)
    fun image member => ?_
  obtain ⟨block, inside, rfl⟩ := List.mem_map.1 member
  exact (@reachable_map_iff { graph with blocks := graph.blocks.filter keep }
    (Block.mapPhis (dropIncoming (graph.dropped keep).contains)) (fun _ => rfl)
    (fun block inside => (mapPhis_dropIncoming (pruned.wellFormed.blocks block inside) _).2.2)
    block.name).2 (pruned.reachable block inside)

/-- Runs stay among the blocks that are kept. -/
theorem rerouted_keeping :
    Rerouted graph (graph.keeping keep)
      (Block.mapPhis (dropIncoming (graph.dropped keep).contains)) (fun _ => id)
      (fun block source origin => (block ∈ graph.blocks ∧ keep block = true) ∧ origin = source ∧
        ∀ name, source = some name → (graph.dropped keep).contains name = false) := by
  obtain ⟨pruned, names_eq⟩ := pruned_keeping wellFormed kept
  have shapes := fun block member gone =>
    mapPhis_dropIncoming (wellFormed.blocks block member) gone
  constructor
  case params_eq => rfl
  case nodup_names => exact names_eq ▸ pruned.wellFormed.nodup_names
  case unlabelled =>
    intro image member instr inside
    obtain ⟨block, isKept, rfl⟩ := List.mem_map.1 member
    have inGraph := (List.mem_filter.1 isKept).1
    rcases List.mem_append.1 inside with isPhi | inBody
    · obtain ⟨phi, isOld, rfl⟩ := List.mem_map.1 isPhi
      obtain ⟨dest, ty, operands, isAction⟩ :=
        Instr.exists_of_isPhi (Block.isPhi_of_mem_phis isOld)
      rw [Instr.isLabel, dropIncoming, Instr.withIncoming, isAction]
      rfl
    · exact (wellFormed.blocks block inGraph).unlabelled instr (Block.mem_of_mem_body inBody)
  case head_eq =>
    rw [keeping, List.head?_map]
    exact congrArg _ pruned.head_eq
  case linked_first =>
    intro first isFirst
    obtain ⟨entry, isEntry, member, entry_eq⟩ := wellFormed.exists_entry
    obtain rfl := Option.some.inj (isFirst.symm.trans isEntry)
    exact ⟨⟨member, (kept first member).2 (by rw [entry_eq]; exact .refl _ _)⟩, rfl,
      fun name impossible => absurd impossible (Option.some_ne_none name).symm⟩
  case member =>
    rintro block source origin ⟨⟨member, isKept⟩, _⟩
    exact ⟨member, List.mem_map_of_mem (List.mem_filter.2 ⟨member, isKept⟩)⟩
  case enter_eq =>
    rintro block source origin ⟨⟨member, _⟩, rfl, from'⟩ env
    rw [(shapes block member _).1]
    exact enter_dropIncoming (fun _ => Block.isPhi_of_mem_phis) from' env
  case body_eq =>
    intro block member middle terminator body_eq
    rw [(shapes block member _).2.1, body_eq, Instr.mapLabels_id]
  case onward =>
    rintro block source origin target ⟨⟨member, isKept⟩, _, _⟩ inside leads
    -- What a kept block leads to is reachable, so it is kept, and it is entered from a block that
    -- is.
    have reached := ((kept block member).1 isKept).step
      (leads_of_mem wellFormed.nodup_names member leads)
    refine .inl ⟨rfl, ⟨inside, (kept target inside).2 reached⟩, rfl, ?_⟩
    rintro name ⟨⟩
    rw [contains_dropped wellFormed.nodup_names member, isKept]
    rfl

end Keeping

/-! ## Both edits -/

/-- There is one reason at most why an edge is not split. -/
theorem Refuses.unique {source target : String} {error other : Error} (wellFormed : graph.WellFormed)
    (refuses : Refuses graph source target error) (refuses' : Refuses graph source target other) :
    error = other := by
  cases refuses with
  | source unknown =>
    cases refuses' with
    | source => rfl
    | target isSource => exact absurd isSource unknown
    | edge isSource => exact absurd isSource unknown
    | keys leads => exact absurd (mem_names_of_leads_left leads) unknown
  | target isSource unknown =>
    cases refuses' with
    | source unknown' => exact absurd isSource unknown'
    | target => rfl
    | edge _ isTarget => exact absurd isTarget unknown
    | keys leads => exact absurd (wellFormed.mem_names_of_leads leads) unknown
  | edge isSource isTarget apart =>
    cases refuses' with
    | source unknown => exact absurd isSource unknown
    | target _ unknown => exact absurd isTarget unknown
    | edge => rfl
    | keys leads => exact absurd leads apart
  | keys leads =>
    cases refuses' with
    | source unknown => exact absurd (mem_names_of_leads_left leads) unknown
    | target _ unknown => exact absurd (wellFormed.mem_names_of_leads leads) unknown
    | edge _ _ apart => exact absurd leads apart
    | keys => rfl

/-- An edge that is there is not split only for want of a key. -/
theorem Refuses.full_of_leads {source target : String} {error : Error}
    (wellFormed : graph.WellFormed) (refuses : Refuses graph source target error)
    (leads : graph.Leads source target) : keyLimit ≤ graph.nextKey + 1 := by
  cases refuses with
  | source unknown => exact absurd (mem_names_of_leads_left leads) unknown
  | target _ unknown => exact absurd (wellFormed.mem_names_of_leads leads) unknown
  | edge _ _ apart => exact absurd leads apart
  | keys _ many => exact many

/-- Why an edge is not split, if it is not. -/
theorem splitEdge_eq_error_iff (wellFormed : graph.WellFormed) {source target : String}
    {error : Error} :
    graph.splitEdge source target = .error error ↔ Refuses graph source target error := by
  rcases splitEdge_cases_of_names wellFormed source target with
    ⟨leads, room, name, after, isSplit, _⟩ | ⟨other, failed, refuses⟩
  · exact iff_of_false (fun failed => by cases failed.symm.trans isSplit) fun refuses =>
      absurd room (Nat.not_lt.2 (refuses.full_of_leads wellFormed leads))
  · rw [failed, Except.error.injEq]
    exact ⟨fun same => same ▸ refuses, refuses.unique wellFormed⟩

/-- Written out, both flow graphs come to the same, by themselves and in every program: to the same
answer, or both fail, or neither ends. -/
def Interchangeable (graph after : FlowGraph) : Prop :=
  ∀ flat flat', graph.flatten = .ok flat → after.flatten = .ok flat' →
    (∀ machine callees args result, flat'.ComesTo machine callees args result ↔
      flat.ComesTo machine callees args result) ∧
    ∀ machine (program : Program) name args result,
      (program.replace flat flat').ComesTo machine name args result ↔
        program.ComesTo machine name args result

/-- A flow graph that leads alike is interchangeable with the one that it comes from. -/
theorem Rerouted.interchangeable {image : Block → Block} {jumps : Block → String → String}
    {linked : Block → Option String → Option String → Prop}
    (rerouted : Rerouted graph after image jumps linked) (wellFormed : graph.WellFormed)
    (name_eq : after.name = graph.name) : Interchangeable graph after := by
  intro flat flat' isFlat isFlat'
  have alike := rerouted.alike_flatten wellFormed isFlat isFlat'
  have sameName : flat'.name = flat.name := by
    rw [(exists_flattened isFlat').2.1, (exists_flattened isFlat).2.1, name_eq]
  exact ⟨alike, fun machine program name args result =>
    Program.comesTo_replace_iff sameName (alike machine)⟩

/-- Two flow graphs are written out unless keys run out. -/
theorem exists_flatten_or_full {bound : Nat} (few : graph.nextKey + graph.blocks.length ≤ bound)
    (few' : after.nextKey + after.blocks.length ≤ bound) :
    (∃ flat flat', graph.flatten = .ok flat ∧ after.flatten = .ok flat') ∨ keyLimit ≤ bound := by
  rcases flatten_cases graph with ⟨flat, isFlat⟩ | ⟨_, many⟩
  · rcases flatten_cases after with ⟨flat', isFlat'⟩ | ⟨_, many⟩
    · exact .inl ⟨flat, flat', isFlat, isFlat'⟩
    · exact .inr (many.trans few')
  · exact .inr (many.trans few)

/-- Splitting an edge and removing unreachable blocks are transparent for the flow graph of a function
whose merges come first. An edge is split when it is there and there is a key for the jump; what else
fails leaves the flow graph at hand as it was. -/
theorem transparent_edits {function : Func} {log : Log} (built : build function = .ok (graph, log))
    (leading : ∀ block ∈ graph.blocks, ∀ instr ∈ block.body, instr.isPhi = false) :
    (∀ source target,
      ((∃ name after, graph.splitEdge source target = .ok (name, after)) ↔
        source ∈ graph.names ∧ target ∈ graph.names ∧ graph.Leads source target ∧
          graph.nextKey + 1 < keyLimit) ∧
      (∀ error, graph.splitEdge source target = .error error ↔
        Refuses graph source target error) ∧
      (∀ name after, splitEdgeInPlace source target graph = .ok name after ↔
        graph.splitEdge source target = .ok (name, after)) ∧
      (∀ error left, splitEdgeInPlace source target graph = .error error left →
        error ≠ .keysExhausted → left = graph) ∧
      ∀ name after, graph.splitEdge source target = .ok (name, after) →
        OnEdge graph source target name after ∧ Interchangeable graph after ∧
          ((∃ flat flat', graph.flatten = .ok flat ∧ after.flatten = .ok flat') ∨
            keyLimit ≤ function.maxKey + 2 * function.instrs.length + 8)) ∧
    ∃ keep : Block → Bool,
      (∀ block ∈ graph.blocks, keep block = true ↔ graph.Reachable block.name) ∧
      graph.removeUnreachable = (graph.dropped keep, graph.keeping keep) ∧
      (graph.keeping keep).removeUnreachable = ([], graph.keeping keep) ∧
      Interchangeable graph (graph.keeping keep) ∧
        ((∃ flat flat', graph.flatten = .ok flat ∧ (graph.keeping keep).flatten = .ok flat') ∨
          keyLimit ≤ function.maxKey + 2 * function.instrs.length + 8) := by
  have builtFrom := builtFrom_of_build built
  have wellFormed := builtFrom.wellFormed leading
  have fewBlocks := builtFrom.length_blocks
  have fewKeys := builtFrom.nextKey_le
  have known : ∀ block ∈ graph.blocks, ∀ phi ∈ block.phis, ∀ label ∈ phi.labels,
      label ∈ graph.names := fun block member phi isPhi label =>
    mem_names_of_merge built member (Block.mem_of_mem_phis isPhi) (Block.isPhi_of_mem_phis isPhi)
  refine ⟨fun source target => ⟨?_, fun error => splitEdge_eq_error_iff wellFormed,
    fun name after => ?_, fun error left failed notFull => ?_, fun name after isSplit => ?_⟩, ?_⟩
  · rcases splitEdge_cases_of_names wellFormed source target with
      ⟨leads, room, name, after, isSplit, _⟩ | ⟨error, failed, refuses⟩
    · exact iff_of_true ⟨name, after, isSplit⟩ ⟨mem_names_of_leads_left leads,
        wellFormed.mem_names_of_leads leads, leads, room⟩
    · exact iff_of_false (fun ⟨name, after, isSplit⟩ => by cases failed.symm.trans isSplit)
        fun ⟨_, _, leads, room⟩ =>
          absurd room (Nat.not_lt.2 (refuses.full_of_leads wellFormed leads))
  · rcases splitEdgeInPlace_cases graph source target with
      ⟨name', after', isSplit, run⟩ | ⟨error, left, failed, run, _⟩
    · rw [isSplit, run]
      simp
    · rw [failed, run]
      simp
  · rcases splitEdgeInPlace_cases graph source target with
      ⟨name', after', isSplit, run⟩ | ⟨error', left', _, run, kept⟩
    · cases failed.symm.trans run
    · obtain ⟨rfl, rfl⟩ := EStateM.Result.error.inj (failed.symm.trans run)
      exact kept notFull
  · rcases splitEdge_cases_of_names wellFormed source target with
      ⟨leads, _, name', after', isSplit', onEdge⟩ | ⟨error, failed, _⟩
    · obtain ⟨rfl, rfl⟩ := Prod.mk.inj (Except.ok.inj (isSplit'.symm.trans isSplit))
      obtain ⟨middle, after', isSplit', split⟩ :=
        (splitEdge_cases wellFormed leads).resolve_right fun failed => by
          cases failed.1.symm.trans isSplit
      obtain ⟨rfl, rfl⟩ := Prod.mk.inj (Except.ok.inj (isSplit'.symm.trans isSplit))
      have lengths := split.length_blocks
      have keys := split.nextKey_eq
      exact ⟨onEdge, (split.rerouted wellFormed known).interchangeable wellFormed split.name_eq,
        exists_flatten_or_full (by omega) (by omega)⟩
    · cases failed.symm.trans isSplit
  · obtain ⟨keep, kept, removed⟩ := removeUnreachable_eq wellFormed
    have fewer : (graph.keeping keep).blocks.length ≤ graph.blocks.length := by
      rw [keeping, List.length_map]
      exact List.length_filter_le ..
    have keys : (graph.keeping keep).nextKey = graph.nextKey := rfl
    exact ⟨keep, kept, removed, removeUnreachable_keeping wellFormed kept,
      (rerouted_keeping wellFormed kept).interchangeable wellFormed rfl,
      exists_flatten_or_full (by omega) (by omega)⟩

/-- A function whose first block branches to a loop on both ways; a block that nothing leads to jumps
to the loop, too. -/
def weave : Func where
  name := "weave"
  params := [⟨"go", .bool⟩]
  returnType := none
  instrs := [.const "x" .int (.int 1), .br "go" "loop" "loop", .label "loop",
    .phi "y" .int ["x", "y", "x"] ["weave_0", "loop", "dead"], .br "go" "loop" "out",
    .label "dead", .jmp "loop", .label "out", .effect .print ["y"] []]
  pos := none

/-- Both edges from the first block to the loop of the function are led over one new block, and the
block that nothing leads to is removed; the function comes to the same. -/
theorem transparent_edits_weave : ∃ graph log name after keep, build weave = .ok (graph, log) ∧
    graph.splitEdge "weave_0" "loop" = .ok (name, after) ∧
    OnEdge graph "weave_0" "loop" name after ∧ Interchangeable graph after ∧
    graph.removeUnreachable = (["dead"], graph.keeping keep) ∧
    Interchangeable graph (graph.keeping keep) := by
  obtain ⟨splits, keep, kept, removed, _, same, _⟩ := @transparent_edits _ weave _ rfl (by decide)
  obtain ⟨splitsIff, _, _, _, done⟩ := splits "weave_0" "loop"
  obtain ⟨name, after, isSplit⟩ := splitsIff.2
    ⟨by decide, by decide, List.contains_iff_mem.1 (by decide), by decide⟩
  obtain ⟨onEdge, alike, _⟩ := done name after isSplit
  refine ⟨_, _, name, after, keep, rfl, isSplit, onEdge, alike, ?_, same⟩
  rw [removed, Prod.mk.injEq]
  exact ⟨(congrArg Prod.fst removed).symm.trans (by decide), rfl⟩

/-- A function that jumps to its end, with the last key but one. -/
def verge : Func where
  name := "verge"
  params := []
  returnType := none
  instrs := [.jmp "end", .label "end", (Instr.ret none).withKey 18446744073709551614]
  pos := none

/-- An edge between two blocks need not be split: there may be no key for the jump. -/
theorem not_transparent_edits : ∃ graph log, build verge = .ok (graph, log) ∧
    (∀ block ∈ graph.blocks, ∀ instr ∈ block.body, instr.isPhi = false) ∧
    "verge_0" ∈ graph.names ∧ "end" ∈ graph.names ∧ graph.Leads "verge_0" "end" ∧
    ¬∃ name after, graph.splitEdge "verge_0" "end" = .ok (name, after) := by
  refine ⟨_, _, rfl, by decide, by decide, by decide, List.contains_iff_mem.1 (by decide), ?_⟩
  rintro ⟨name, after, isSplit⟩
  cases isSplit

end FlowGraph

end Midend
