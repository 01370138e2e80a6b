import Midend.Proofs.FlowGraph.Build
import Midend.Proofs.FlowGraph.SplitEdge

/-! # Flow graphs read back

No block of the flow graph of a function has the empty name (`FlowGraph.named_of_build`). A
well-formed flow graph that is written out is a function that passes its check, and the flow graph
of that function is the old one again (`FlowGraph.build_flatten`). -/

namespace Midend

namespace FlowGraph

/-! ## Names of blocks -/

/-- A label that passes its check has a name. -/
theorem ne_empty_of_labelName? {instr : Instr} (checked : instr.Checked) {name : String}
    (isLabel : instr.labelName? = some name) : name ≠ "" := by
  rw [Instr.labelName?_eq_some_iff] at isLabel
  rintro rfl
  rw [Instr.Checked, Instr.check, isLabel] at checked
  cases checked

/-- Segments are named by labels or numbers. -/
theorem named_of_ofSegments {function : Func} {graph : FlowGraph} (checked : function.Checked)
    (cutUp : ofSegments function = .ok graph) : "" ∉ graph.names := by
  have labels := (segmented_cut function.instrs).labelNames
  obtain ⟨_, rfl⟩ := ofSegments_eq_ok cutUp
  intro empty
  obtain ⟨block, member, isEmpty⟩ := List.mem_map.1 empty
  rcases mem_labels_or_numbered member with isLabel | ⟨number, _, isNumbered, _⟩
  · rw [← labels] at isLabel
    obtain ⟨instr, inside, isName⟩ := List.mem_filterMap.1 isLabel
    exact ne_empty_of_labelName? (checked.instrs instr inside) isName isEmpty
  · exact numbered_ne_empty _ (by decide) number (isNumbered.symm.trans isEmpty)

/-- Ends of blocks do not change their names. -/
theorem names_of_terminate {graph after : FlowGraph} {blocks ended : List Block}
    {changed : List String} (done : graph.terminate blocks = .ok (changed, ended, after)) :
    ended.map Block.name = blocks.map Block.name :=
  map_name_of_forall₂ (terminate_eq_ok done).1 fun _ _ facts => facts.1

/-- Ends of blocks do not change their names. -/
theorem names_of_addTerminators {graph after : FlowGraph} {changed : List String}
    (done : graph.addTerminators = .ok (changed, after)) : after.names = graph.names := by
  obtain ⟨⟨_, ended, last⟩, terminated, isAfter⟩ := Attempt.bind_eq_ok.1 done
  obtain ⟨_, rfl⟩ := Prod.mk.inj (Except.ok.inj isAfter)
  exact names_of_terminate terminated

/-- No block of the flow graph of a function has the empty name. -/
theorem named_of_build {function : Func} {graph : FlowGraph} {log : Log}
    (built : build function = .ok (graph, log)) : "" ∉ graph.names := by
  obtain ⟨start, _, entered, _, written, cutUp, added, terminated⟩ := exists_stages_of_build built
  have named := named_of_ofSegments written.checked cutUp
  rw [names_of_addTerminators terminated]
  rcases addEntry_cases added with ⟨rfl, _⟩ | ⟨name, _, _, notEmpty, _, _, rfl⟩
  · exact named
  · exact fun empty => (List.mem_cons.1 empty).elim (fun same => notEmpty same.symm) named

/-- The flow graph of a function has blocks, and they have names of their own, wherever its merges
stand. -/
theorem names_of_build {function : Func} {graph : FlowGraph} {log : Log}
    (built : build function = .ok (graph, log)) : graph.names.Nodup ∧ graph.names ≠ [] := by
  obtain ⟨start, _, entered, _, written, _, added, terminated⟩ := exists_stages_of_build built
  rw [names_of_addTerminators terminated]
  rcases addEntry_cases added with ⟨rfl, _⟩ | ⟨_, _, isNew, _, _, _, rfl⟩
  · exact ⟨written.nodup_names, mt List.map_eq_nil_iff.1 written.nonempty⟩
  · exact ⟨List.nodup_cons.2 ⟨isNew, written.nodup_names⟩, List.cons_ne_nil _ _⟩

/-- The blocks of the flow graph of a function have names of their own. -/
theorem nodup_names_of_build {function : Func} {graph : FlowGraph} {log : Log}
    (built : build function = .ok (graph, log)) : graph.names.Nodup := (names_of_build built).1

/-! ## The check -/

end FlowGraph

/-- In a list without repetitions nothing is found twice. -/
theorem firstRepeated?_of_nodup {names : List String} (nodup : names.Nodup) :
    firstRepeated? names = none := by
  have general : ∀ (names : List String) (seen : SortedSet String), names.Nodup →
      (∀ name ∈ names, name ∉ seen) → firstRepeated?.search seen names = none := by
    intro names
    induction names with
    | nil => exact fun _ _ _ => rfl
    | cons name rest restIH =>
      intro seen nodup fresh
      obtain ⟨notInRest, nodup⟩ := List.nodup_cons.1 nodup
      have unseen := fresh name (List.mem_cons_self ..)
      rw [firstRepeated?.search, if_neg (by rwa [SortedSet.contains_iff])]
      refine restIH _ nodup fun other member => ?_
      rw [SortedSet.mem_insert, not_or]
      exact ⟨fun same => notInRest (same ▸ member), fresh other (List.mem_cons_of_mem _ member)⟩
  exact general names .empty nodup fun name _ => by simp

namespace Func

/-- Well-formed instructions with distinct labels pass their check. -/
theorem exists_checkInstrs (function : String) {labels : SortedSet String} {instrs : List Instr}
    (checked : ∀ instr ∈ instrs, instr.Checked) (nodup : (labelNames instrs).Nodup)
    (fresh : ∀ name ∈ labelNames instrs, name ∉ labels) :
    ∃ found, checkInstrs function labels instrs = .ok found := by
  induction instrs generalizing labels with
  | nil => exact ⟨labels, rfl⟩
  | cons instr rest restIH =>
    obtain ⟨here, others⟩ := List.forall_mem_cons.1 checked
    rw [checkInstrs, here, Attempt.ok_bind]
    split
    · rename_i name isLabel
      have names : labelNames (instr :: rest) = name :: labelNames rest := by
        rw [labelNames, List.filterMap_cons, Instr.labelName?_eq_some_iff.2 isLabel]
        rfl
      rw [names] at nodup fresh
      obtain ⟨notInRest, nodup⟩ := List.nodup_cons.1 nodup
      have unknown := fresh name (List.mem_cons_self ..)
      rw [if_neg (by rwa [SortedSet.contains_iff])]
      refine restIH others nodup fun other member => ?_
      rw [SortedSet.mem_insert, not_or]
      exact ⟨fun same => notInRest (same ▸ member), fresh other (List.mem_cons_of_mem _ member)⟩
    · rename_i other
      have names : labelNames (instr :: rest) = labelNames rest := by
        have none : instr.labelName? = none := by
          cases isName : instr.labelName? with
          | none => rfl
          | some name => exact absurd (Instr.labelName?_eq_some_iff.1 isName) (other name)
        rw [labelNames, List.filterMap_cons, none]
        rfl
      rw [names] at nodup fresh
      exact restIH others nodup fresh

/-- A function passes its check exactly when it is well-formed. -/
theorem check_eq_ok_iff {function : Func} : function.check = .ok () ↔ function.Checked := by
  refine ⟨checked_of_check, fun checked => ?_⟩
  obtain ⟨found, isFound⟩ : ∃ found, checkInstrs function.name .empty function.instrs = .ok found :=
    exists_checkInstrs function.name checked.instrs checked.nodup_labels fun name _ => by simp
  have members := (checkInstrs_eq_ok isFound).2.2.2
  have known : (((function.instrs.filter Instr.isTerminator).flatMap Instr.labels).find?
      fun target => !found.contains target) = none := by
    rw [List.find?_eq_none]
    intro target isTarget
    obtain ⟨instr, member, isLabel⟩ := List.mem_flatMap.1 isTarget
    obtain ⟨inside, ends⟩ := List.mem_filter.1 member
    have declared := checked.target_mem instr inside ends target isLabel
    simp [SortedSet.contains_iff, members, declared]
  simp only [check, firstRepeated?_of_nodup checked.nodup_params, isFound, known, Attempt.ok_bind,
    Attempt.pure_eq_ok]

end Func

/-- An instruction of a well-formed block that ends blocks says where the block leads. -/
theorem Block.WellFormed.successors_of_mem {block : Block} (wellFormed : block.WellFormed)
    {instr : Instr} (member : instr ∈ block.instrs) (ends : instr.isTerminator = true) :
    block.successors = instr.labels.eraseDups := by
  obtain ⟨front, terminator, split, plain, last⟩ := wellFormed.exists_end
  have checked := wellFormed.checked instr member
  rw [split] at member
  rcases List.mem_append.1 member with inFront | isLast
  · rw [plain instr inFront] at ends
    cases ends
  · obtain rfl := List.mem_singleton.1 isLast
    exact Block.successors_of_terminator (Block.terminator?_of_split split ends) checked ends

namespace FlowGraph

/-! ## Reading back -/

variable {graph : FlowGraph} {function : Func}

/-- The labels of a flow graph that is written out are the names of its blocks. -/
theorem Flattened.labelNames {blocks : List Block} {code : List Instr} (flat : Flattened blocks code)
    (unlabelled : ∀ block ∈ blocks, ∀ instr ∈ block.instrs, instr.isLabel = false) :
    Func.labelNames code = blocks.map Block.name := by
  induction flat with
  | nil => rfl
  | @cons block blocks label instrs isLabel _ restIH =>
    obtain ⟨here, others⟩ := List.forall_mem_cons.1 unlabelled
    have none : block.instrs.filterMap Instr.labelName? = [] := by
      rw [List.filterMap_eq_nil_iff]
      exact fun instr member => Instr.labelName?_eq_none (here instr member)
    have rest := restIH others
    rw [Func.labelNames] at rest ⊢
    rw [List.filterMap_cons, Instr.labelName?_eq_some_iff.2 isLabel, List.filterMap_append, none,
      List.nil_append, rest]
    rfl

/-- The instructions of a flow graph that is written out. -/
theorem Flattened.mem {blocks : List Block} {code : List Instr} (flat : Flattened blocks code)
    {instr : Instr} (member : instr ∈ code) :
    (∃ block ∈ blocks, instr.action = .label block.name) ∨
      ∃ block ∈ blocks, instr ∈ block.instrs := by
  induction flat with
  | nil => cases member
  | @cons block blocks label instrs isLabel _ restIH =>
    rcases List.mem_cons.1 member with rfl | member
    · exact .inl ⟨block, List.mem_cons_self .., isLabel⟩
    · rcases List.mem_append.1 member with inBlock | inRest
      · exact .inr ⟨block, List.mem_cons_self .., inBlock⟩
      · rcases restIH inRest with ⟨other, isOther, found⟩ | ⟨other, isOther, found⟩
        · exact .inl ⟨other, List.mem_cons_of_mem _ isOther, found⟩
        · exact .inr ⟨other, List.mem_cons_of_mem _ isOther, found⟩

/-- The parts of a flow graph that is written out. -/
theorem exists_flattened (flat : graph.flatten = .ok function) :
    Flattened graph.blocks function.instrs ∧ function.name = graph.name ∧
      function.params = graph.params ∧ function.returnType = graph.returnType ∧
      function.pos = graph.pos := by
  obtain ⟨instrs, isFlat, flat⟩ := Attempt.bind_eq_ok.1 flat
  obtain rfl := Except.ok.inj flat
  exact ⟨flattened_of_flattenBlocks isFlat, rfl, rfl, rfl, rfl⟩

/-- A well-formed flow graph that is written out passes the check. -/
theorem checked_flatten (wellFormed : graph.WellFormed) (named : "" ∉ graph.names)
    (flat : graph.flatten = .ok function) : function.Checked := by
  obtain ⟨flattened, _, params_eq, _, _⟩ := exists_flattened flat
  have labels := flattened.labelNames fun block member =>
    (wellFormed.blocks block member).unlabelled
  refine ⟨?_, fun instr member => ?_, labels ▸ wellFormed.nodup_names, ?_⟩
  · rw [params_eq]
    exact wellFormed.nodup_params
  · rcases flattened.mem member with ⟨block, inside, isLabel⟩ | ⟨block, inside, inBlock⟩
    · have notEmpty : block.name.isEmpty = false := by
        rw [Bool.eq_false_iff, Ne, String.isEmpty_iff]
        exact fun empty => named (empty ▸ List.mem_map_of_mem inside)
      rw [Instr.Checked, Instr.check, isLabel]
      simp [notEmpty]
    · exact (wellFormed.blocks block inside).checked instr inBlock
  · intro instr member ends target isTarget
    rcases flattened.mem member with ⟨block, _, isLabel⟩ | ⟨block, inside, inBlock⟩
    · rw [Instr.isTerminator, Instr.op?, isLabel] at ends
      cases ends
    · rw [labels]
      refine wellFormed.target_mem block inside target ?_
      rw [(wellFormed.blocks block inside).successors_of_mem inBlock ends, List.mem_eraseDups]
      exact isTarget

/-- Cutting a straight run of instructions off the code, up to the one that ends it. -/
theorem cutFrom_straight {front rest : List Instr} {terminator : Instr} (current : Segment)
    (unlabelled : ∀ instr ∈ front, instr.isLabel = false)
    (plain : ∀ instr ∈ front, instr.isTerminator = false) (ends : terminator.isTerminator = true) :
    cutFrom current (front ++ terminator :: rest) =
      (current.1, current.2 ++ (front ++ [terminator])) :: cutFrom (none, []) rest := by
  -- An instruction that is no label joins the segment at work.
  have joins {instr : Instr} (current : Segment) (code : List Instr)
      (notLabel : instr.isLabel = false) : cutFrom current (instr :: code) =
        if instr.isTerminator then (current.1, current.2 ++ [instr]) :: cutFrom (none, []) code
        else cutFrom (current.1, current.2 ++ [instr]) code := by
    rw [cutFrom]
    split
    · rename_i isLabel
      rw [Instr.isLabel, isLabel] at notLabel
      cases notLabel
    · rfl
  induction front generalizing current with
  | nil =>
    have notLabel : terminator.isLabel = false := by
      unfold Instr.isLabel
      split
      · rename_i isLabel
        rw [Instr.isTerminator, Instr.op?, isLabel] at ends
        cases ends
      · rfl
    rw [List.nil_append, joins current rest notLabel, if_pos ends, List.nil_append]
  | cons instr front frontIH =>
    obtain ⟨notLabel, unlabelled⟩ := List.forall_mem_cons.1 unlabelled
    obtain ⟨goesOn, plain⟩ := List.forall_mem_cons.1 plain
    rw [List.cons_append, joins current _ notLabel, if_neg (by rw [goesOn]; exact Bool.false_ne_true),
      frontIH _ unlabelled plain]
    simp

/-- Code that was written out is cut into its blocks. -/
theorem Flattened.cutFrom_eq {blocks : List Block} {code : List Instr} (flat : Flattened blocks code)
    (formed : ∀ block ∈ blocks, block.WellFormed) :
    cutFrom (none, []) code = blocks.map fun block => (some block.name, block.instrs) := by
  induction flat with
  | nil => rfl
  | @cons block blocks label instrs isLabel _ restIH =>
    obtain ⟨here, others⟩ := List.forall_mem_cons.1 formed
    obtain ⟨front, terminator, split, plain, ends⟩ := here.exists_end
    have unlabelled : ∀ instr ∈ front, instr.isLabel = false := fun instr member =>
      here.unlabelled instr (by rw [split]; exact List.mem_append_left _ member)
    have first : cutFrom (none, []) (label :: (block.instrs ++ instrs)) =
        cutFrom (some block.name, []) (block.instrs ++ instrs) := by
      rw [cutFrom, isLabel]
      rfl
    rw [first, split, List.append_assoc, List.singleton_append,
      cutFrom_straight _ unlabelled plain ends, restIH others, List.map_cons, split]
    rfl

/-- Segments with labels become blocks of those names. -/
theorem nameSegments_of_labelled (name : String) (labels : List String) (counter : Nat)
    (blocks : List Block) :
    nameSegments name labels counter (blocks.map fun block => (some block.name, block.instrs)) =
      (blocks, counter) := by
  induction blocks with
  | nil => rfl
  | cons block rest restIH => rw [List.map_cons, nameSegments, restIH]

/-- Blocks that end need no ends. -/
theorem terminate_of_ended (graph : FlowGraph) {blocks : List Block}
    (ended : ∀ block ∈ blocks, block.terminator?.isSome = true) :
    graph.terminate blocks = .ok ([], blocks, graph) := by
  induction blocks with
  | nil => rfl
  | cons block rest restIH =>
    obtain ⟨here, others⟩ := List.forall_mem_cons.1 ended
    unfold terminate
    rw [if_pos here, restIH others]
    rfl

/-- A well-formed flow graph that is written out can be read back, as long as there is a key left:
its function passes the check, and the flow graph of that function differs in the supplies of keys
and names only. -/
theorem build_flatten (wellFormed : graph.WellFormed) (fit : graph.PhisFit) (named : "" ∉ graph.names)
    (flat : graph.flatten = .ok function) (left : function.maxKey + 1 < keyLimit) :
    build function =
      .ok ({ graph with nextKey := function.maxKey + 1, nextBlock := 0 }, []) := by
  obtain ⟨flattened, name_eq, params_eq, returnType_eq, pos_eq⟩ := exists_flattened flat
  -- Labels cut the code up as it was put together, and then no step of building finds anything to
  -- do.
  have cut_eq : cut function.instrs =
      graph.blocks.map fun block => (some block.name, block.instrs) := by
    rw [cut, flattened.cutFrom_eq wellFormed.blocks]
    obtain ⟨first, isFirst, _⟩ := wellFormed.exists_entry
    obtain ⟨rest, isBlocks⟩ := List.head?_eq_some_iff.1 isFirst
    rw [isBlocks]
    rfl
  have cutUp : ofSegments function =
      .ok { graph with nextKey := function.maxKey + 1, nextBlock := 0 } := by
    unfold ofSegments
    dsimp only
    rw [cut_eq, nameSegments_of_labelled, if_neg (Nat.not_le.2 left), name_eq, params_eq,
      returnType_eq, pos_eq]
    rfl
  have labelled : checkPhiLabels { graph with nextKey := function.maxKey + 1, nextBlock := 0 } =
      .ok () := by
    refine checkPhiLabels_eq_ok_iff.2 fun block member phi inside isMerge label isLabel => ?_
    have leading : phi ∈ block.phis := by
      rw [← block.phis_append_body, List.mem_append] at inside
      refine inside.resolve_right fun inBody => ?_
      rw [(wellFormed.blocks block member).phis_first phi inBody] at isMerge
      cases isMerge
    exact mem_names_of_leads_left
      ((fit.mem_labels wellFormed.nodup_names member leading).1 isLabel)
  -- Nothing leads to the entry of a well-formed flow graph.
  have entered : addEntry { graph with nextKey := function.maxKey + 1, nextBlock := 0 } =
      .ok (none, { graph with nextKey := function.maxKey + 1, nextBlock := 0 }) := by
    obtain ⟨first, isFirst, _, isEntry⟩ := wellFormed.exists_entry
    obtain ⟨rest, isBlocks⟩ := List.head?_eq_some_iff.1 isFirst
    have unreached : graph.predecessorsOf first.name = [] := by
      rw [isEntry, wellFormed.predecessorsOf_entry]
    unfold addEntry
    dsimp only
    split
    · rfl
    · rename_i other more isOther
      obtain ⟨rfl, _⟩ := List.cons.inj (isBlocks.symm.trans isOther)
      refine if_pos ?_
      change (graph.predecessorsOf first.name).isEmpty = true
      rw [unreached]
      rfl
  have ended : addTerminators { graph with nextKey := function.maxKey + 1, nextBlock := 0 } =
      .ok ([], { graph with nextKey := function.maxKey + 1, nextBlock := 0 }) := by
    rw [addTerminators, terminate_of_ended]
    · rfl
    · intro block member
      obtain ⟨terminator, isLast, _⟩ := (wellFormed.blocks block member).exists_terminator
      rw [isLast]
      rfl
  rw [build, Func.check_eq_ok_iff.2 (checked_flatten wellFormed named flat), cutUp]
  simp only [Attempt.ok_bind, labelled, entered, ended]
  rfl

end FlowGraph

end Midend
