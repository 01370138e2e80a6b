import Midend.FlowGraph.Edit
import Midend.Proofs.Attempt
import Midend.Proofs.Func
import Midend.Proofs.Semantics.Simulation

/-! # From flow graphs to functions

A flow graph written out as a flat list of instructions, with a label in front of each block, yields
what the flow graph yields (`FlowGraph.yields_flatten_iff`). -/

namespace Midend

/-! ## Flat runs of plain instructions -/

namespace Func

variable {machine : Machine} {calls : Calls} {code front rest : List Instr}
  {current previous : Option String} {state next : State}

/-- How a flat run goes on where a block is left. -/
def leave (machine : Machine) (calls : Calls) (code : List Instr) (fuel : Nat)
    (current previous : Option String) : State × Control → Option Answer
  | (_, .next) => none
  | (state, .jump label) => (seek label code).bind fun target =>
    runFrom machine calls code fuel target current previous state
  | (state, .halt value) => some ⟨state.lines, value⟩

/-- A flat run goes through instructions that run to their end. -/
theorem runFrom_append (fuel : Nat)
    (plain : ∀ instr ∈ front, instr.isLabel = false ∧ instr.isPhi = false)
    (ran : Instr.execAll machine calls front state = some (next, .next)) :
    runFrom machine calls code (fuel + front.length) (front ++ rest) current previous state =
      runFrom machine calls code fuel rest current previous next := by
  induction front generalizing state with
  | nil =>
    obtain rfl := (Prod.mk.inj (Option.some.inj ran)).1
    rfl
  | cons instr front frontIH =>
    obtain ⟨notLabel, notPhi⟩ := plain instr (List.mem_cons_self ..)
    obtain ⟨between, first, ran⟩ := Instr.execAll_cons_next_iff.1 ran
    rw [List.cons_append, List.length_cons, ← Nat.add_assoc, runFrom_plain notLabel notPhi, first,
      Option.bind_some]
    exact frontIH (fun other member => plain other (List.mem_cons_of_mem _ member)) ran

/-- A flat run that has an answer runs instructions that do not end a block to their end. -/
theorem exists_of_runFrom_append {fuel : Nat} {answer : Answer}
    (plain : ∀ instr ∈ front, instr.isLabel = false ∧ instr.isPhi = false)
    (straight : ∀ instr ∈ front, instr.isTerminator = false)
    (ran : runFrom machine calls code fuel (front ++ rest) current previous state = some answer) :
    ∃ next less, Instr.execAll machine calls front state = some (next, .next) ∧ less ≤ fuel ∧
      runFrom machine calls code less rest current previous next = some answer := by
  induction front generalizing fuel state with
  | nil => exact ⟨state, fuel, rfl, Nat.le_refl _, ran⟩
  | cons instr front frontIH =>
    obtain ⟨notLabel, notPhi⟩ := plain instr (List.mem_cons_self ..)
    cases fuel with
    | zero => cases ran
    | succ fuel =>
      rw [List.cons_append, runFrom_plain notLabel notPhi] at ran
      obtain ⟨⟨between, control⟩, first, ran⟩ := Option.bind_eq_some_iff.1 ran
      obtain rfl := Instr.goes_on (straight instr (List.mem_cons_self ..)) first
      obtain ⟨next, less, others, bound, ran⟩ := frontIH
        (fun other member => plain other (List.mem_cons_of_mem _ member))
        (fun other member => straight other (List.mem_cons_of_mem _ member)) ran
      exact ⟨next, less, Instr.execAll_cons_next_iff.2 ⟨between, first, others⟩, by omega, ran⟩

end Func

/-! ## Finding labels -/

/-- A label is not found among instructions that are none. -/
theorem seek_append_of_unlabelled {front rest : List Instr} (label : String)
    (plain : ∀ instr ∈ front, instr.isLabel = false) :
    seek label (front ++ rest) = seek label rest := by
  induction front with
  | nil => rfl
  | cons instr front frontIH =>
    have other : instr.action ≠ .label label := by
      intro isLabel
      have := plain instr (List.mem_cons_self ..)
      simp [Instr.isLabel, isLabel] at this
    rw [List.cons_append, seek, frontIH fun other member =>
      plain other (List.mem_cons_of_mem _ member), if_neg other]
    cases seek label rest <;> rfl

/-- What is found behind a label is the end of the code. -/
theorem isSuffix_of_seek {label : String} {code target : List Instr}
    (sought : seek label code = some target) : target <:+ code := by
  induction code generalizing target with
  | nil => cases sought
  | cons instr rest restIH =>
    rw [seek] at sought
    split at sought
    · rename_i found isFound
      obtain rfl := Option.some.inj sought
      exact (restIH isFound).trans (List.suffix_cons ..)
    · split at sought
      · exact Option.some.inj sought ▸ List.suffix_rfl
      · cases sought

/-- A label of the code is found. -/
theorem exists_seek_of_mem {label : String} {code : List Instr}
    (member : label ∈ Func.labelNames code) : ∃ target, seek label code = some target := by
  induction code with
  | nil => cases member
  | cons instr rest restIH =>
    rw [seek]
    split
    · exact ⟨_, rfl⟩
    · rename_i notFound
      refine ⟨instr :: rest, if_pos ?_⟩
      obtain ⟨other, inside, isLabel⟩ := List.mem_filterMap.1 member
      rcases List.mem_cons.1 inside with rfl | inRest
      · exact Instr.labelName?_eq_some_iff.1 isLabel
      · obtain ⟨target, found⟩ := restIH (List.mem_filterMap.2 ⟨other, inRest, isLabel⟩)
        rw [notFound] at found
        cases found

namespace FlowGraph

/-- Instructions that are those of blocks, with a label in front of each block. -/
inductive Flattened : List Block → List Instr → Prop where
  /-- No block has no instruction. -/
  | nil : Flattened [] []
  /-- A block is a label and its instructions. -/
  | cons {block : Block} {blocks : List Block} {label : Instr} {instrs : List Instr} :
      label.action = .label block.name → Flattened blocks instrs →
        Flattened (block :: blocks) (label :: (block.instrs ++ instrs))

/-- Writing out blocks puts a label in front of each. -/
theorem flattened_of_flattenBlocks {graph : FlowGraph} {blocks : List Block} {instrs : List Instr}
    (flat : graph.flattenBlocks blocks = .ok instrs) : Flattened blocks instrs := by
  induction blocks generalizing graph instrs with
  | nil =>
    obtain rfl := Except.ok.inj flat
    exact .nil
  | cons block rest restIH =>
    rw [flattenBlocks] at flat
    obtain ⟨⟨key, keyed⟩, _, flat⟩ := Attempt.bind_eq_ok.1 flat
    obtain ⟨others, flatRest, flat⟩ := Attempt.bind_eq_ok.1 flat
    obtain rfl := Except.ok.inj flat
    exact .cons rfl (restIH flatRest)

/-- A label of no block is not found. -/
theorem Flattened.seek_eq_none {blocks : List Block} {code : List Instr} {label : String}
    (flat : Flattened blocks code)
    (unlabelled : ∀ block ∈ blocks, ∀ instr ∈ block.instrs, instr.isLabel = false)
    (absent : label ∉ blocks.map Block.name) : seek label code = none := by
  induction flat with
  | nil => rfl
  | cons isLabel _ restIH =>
    rw [List.map_cons, List.mem_cons, not_or] at absent
    rw [seek, seek_append_of_unlabelled _ (unlabelled _ (List.mem_cons_self ..)),
      restIH (fun block member => unlabelled block (List.mem_cons_of_mem _ member)) absent.2,
      isLabel]
    exact if_neg fun same => absent.1 (Action.label.inj same).symm

/-- The label in front of the code written out is found there. -/
theorem Flattened.seek_first {block : Block} {blocks : List Block} {code : List Instr}
    (flat : Flattened (block :: blocks) code) (nodup : ((block :: blocks).map Block.name).Nodup)
    (unlabelled : ∀ other ∈ block :: blocks, ∀ instr ∈ other.instrs, instr.isLabel = false) :
    seek block.name code = some code := by
  obtain ⟨here, others⟩ := List.forall_mem_cons.1 unlabelled
  cases flat with
  | cons isLabel flat =>
    rw [seek, seek_append_of_unlabelled _ here,
      flat.seek_eq_none others (List.nodup_cons.1 nodup).1]
    exact if_pos isLabel

/-- Where a label is found in the code written out, the block of that name and the blocks behind it
follow. -/
theorem Flattened.exists_seek_suffix {blocks later : List Block} {code : List Instr} {block : Block}
    (flat : Flattened blocks code) (nodup : (blocks.map Block.name).Nodup)
    (unlabelled : ∀ block ∈ blocks, ∀ instr ∈ block.instrs, instr.isLabel = false)
    (suffix : (block :: later) <:+ blocks) :
    ∃ label rest, label.action = .label block.name ∧ Flattened later rest ∧
      seek block.name code = some (label :: (block.instrs ++ rest)) := by
  induction flat with
  | nil => cases List.suffix_nil.1 suffix
  | @cons first blocks label instrs isLabel flat restIH =>
    rcases List.suffix_cons_iff.1 suffix with same | inRest
    · obtain ⟨rfl, rfl⟩ := List.cons.inj same
      exact ⟨label, instrs, isLabel, flat,
        (Flattened.cons isLabel flat).seek_first nodup unlabelled⟩
    · obtain ⟨here, others⟩ := List.forall_mem_cons.1 unlabelled
      obtain ⟨label, rest, isLabel, flat', found⟩ :=
        restIH (List.nodup_cons.1 nodup).2 others inRest
      refine ⟨label, rest, isLabel, flat', ?_⟩
      rw [seek, seek_append_of_unlabelled _ here, found]

/-- The label of a block is found, with the block behind it. -/
theorem Flattened.exists_seek {blocks : List Block} {code : List Instr} {block : Block}
    (flat : Flattened blocks code) (nodup : (blocks.map Block.name).Nodup)
    (unlabelled : ∀ block ∈ blocks, ∀ instr ∈ block.instrs, instr.isLabel = false)
    (member : block ∈ blocks) :
    ∃ label rest, label.action = .label block.name ∧
      seek block.name code = some (label :: (block.instrs ++ rest)) := by
  obtain ⟨front, later, rfl⟩ := List.append_of_mem member
  obtain ⟨label, rest, isLabel, _, found⟩ :=
    flat.exists_seek_suffix nodup unlabelled (List.suffix_append ..)
  exact ⟨label, rest, isLabel, found⟩

/-! ## Runs -/

/-- Where the code of a block stands, its merges are followed by its body. -/
theorem leading_phis {block : Block} (nonempty : block.body ≠ []) (rest : List Instr) :
    (block.instrs ++ rest).takeWhile Instr.isPhi = block.phis ∧
      (block.instrs ++ rest).dropWhile Instr.isPhi = block.body ++ rest := by
  obtain ⟨first, others, isFirst⟩ := List.exists_cons_of_ne_nil nonempty
  have notPhi : first.isPhi = false := by
    have head := List.head?_dropWhile_not Instr.isPhi block.instrs
    rw [← Block.body, isFirst] at head
    simpa using head
  have isPhi : ∀ instr ∈ block.phis, instr.isPhi = true := fun _ => Block.isPhi_of_mem_phis
  rw [← block.phis_append_body, List.append_assoc, List.takeWhile_append_of_pos isPhi,
    List.dropWhile_append_of_pos isPhi, isFirst, List.cons_append]
  rw [List.takeWhile_cons_of_neg (by simp [notPhi]), List.dropWhile_cons_of_neg (by simp [notPhi]),
    List.append_nil]
  exact ⟨rfl, rfl⟩

/-- A block has no merges, or starts with one. -/
theorem phis_cases (block : Block) :
    (block.phis = [] ∧ block.instrs = block.body) ∨
      ∃ phi others, block.phis = phi :: others ∧ phi.isPhi = true ∧
        block.instrs = phi :: (others ++ block.body) := by
  have whole := block.phis_append_body
  cases phis : block.phis with
  | nil =>
    rw [phis, List.nil_append] at whole
    exact .inl ⟨rfl, whole.symm⟩
  | cons phi others =>
    rw [phis, List.cons_append] at whole
    exact .inr ⟨phi, others, rfl,
      Block.isPhi_of_mem_phis (phis ▸ List.mem_cons_self ..), whole.symm⟩

/-- A flat run goes through the merges of a block, if it has any. -/
theorem runFrom_phis {machine : Machine} {calls : Calls} {code : List Instr} {block : Block}
    (wellFormed : block.WellFormed) (rest : List Instr) (current previous : Option String)
    (state : State) :
    ∃ steps, ∀ fuel, Func.runFrom machine calls code (fuel + steps) (block.instrs ++ rest) current
        previous state =
      (Instr.enter block.phis previous state.env).bind fun env =>
        Func.runFrom machine calls code fuel (block.body ++ rest) current previous
          { state with env } := by
  obtain ⟨leading, remaining⟩ := leading_phis wellFormed.body_ne_nil rest
  rcases phis_cases block with ⟨phis, whole⟩ | ⟨phi, others, phis, isPhi, whole⟩
  · refine ⟨0, fun fuel => ?_⟩
    rw [phis, whole]
    rfl
  · refine ⟨1, fun fuel => ?_⟩
    have first : block.instrs ++ rest = phi :: (others ++ block.body ++ rest) := by
      rw [whole, List.cons_append]
    rw [first, Func.runFrom_phi isPhi, ← first, leading, remaining]

/-- A flat run of a block, from its label on: merges, body, and what ends the block. -/
theorem runFrom_block {machine : Machine} {calls : Calls} {code : List Instr} {block : Block}
    (wellFormed : block.WellFormed) {source : Option String} {state next : State}
    {control : Control} (ran : block.exec machine calls source state = some (next, control))
    (rest : List Instr) :
    ∃ more, ∀ (fuel : Nat) (label : Instr) (previous : Option String),
      label.action = .label block.name →
        Func.runFrom machine calls code (fuel + more) (label :: (block.instrs ++ rest)) source
          previous state =
        Func.leave machine calls code fuel (some block.name) source (next, control) := by
  obtain ⟨middle, terminator, body, split, plain, ends⟩ := wellFormed.exists_body
  obtain ⟨env, entered, ran⟩ := Block.exec_eq_some_iff.1 ran
  rw [body, Instr.execAll_concat_iff plain] at ran
  obtain ⟨between, middleRan, last⟩ := ran
  have plainly : ∀ instr ∈ middle ++ [terminator], instr.isLabel = false ∧ instr.isPhi = false :=
    fun instr member => (wellFormed.plain_body instr (by rwa [body])).2
  obtain ⟨notLabel, notPhi⟩ := plainly terminator (by simp)
  have stops : control ≠ .next := Instr.control_ne_next ends last
  obtain ⟨steps, merged⟩ := @runFrom_phis machine calls code _ wellFormed rest (some block.name) source
    state
  refine ⟨1 + middle.length + steps + 1, fun fuel label previous isLabel => ?_⟩
  rw [← Nat.add_assoc, Func.runFrom_label isLabel, ← Nat.add_assoc, merged, entered,
    Option.bind_some, body, ← Nat.add_assoc, List.append_assoc, Func.runFrom_append (fuel + 1)
      (fun instr member => plainly instr (List.mem_append_left _ member)) middleRan,
    List.singleton_append, Func.runFrom_plain notLabel notPhi, last, Option.bind_some]
  cases control with
  | next => exact absurd rfl stops
  | jump target => rfl
  | halt value => rfl

/-- A flat run that has an answer runs the block at whose label it is, and then leaves it. -/
theorem exists_of_runFrom_block {machine : Machine} {calls : Calls} {code : List Instr}
    {block : Block} (wellFormed : block.WellFormed) {source previous : Option String}
    {state : State} {fuel : Nat} {label : Instr} {rest : List Instr} {answer : Answer}
    (isLabel : label.action = .label block.name)
    (ran : Func.runFrom machine calls code fuel (label :: (block.instrs ++ rest)) source previous
      state = some answer) :
    ∃ next control less, block.exec machine calls source state = some (next, control) ∧
      less < fuel ∧
      Func.leave machine calls code less (some block.name) source (next, control) = some answer := by
  obtain ⟨middle, terminator, body, split, plain, ends⟩ := wellFormed.exists_body
  have plainly : ∀ instr ∈ middle ++ [terminator], instr.isLabel = false ∧ instr.isPhi = false :=
    fun instr member => (wellFormed.plain_body instr (by rwa [body])).2
  obtain ⟨notLabel, notPhi⟩ := plainly terminator (by simp)
  cases fuel with
  | zero => cases ran
  | succ fuel =>
    rw [Func.runFrom_label isLabel] at ran
    -- More fuel does no harm, and makes up for what the merges take.
    obtain ⟨steps, merged⟩ := @runFrom_phis machine calls code _ wellFormed rest (some block.name)
      source state
    have more := Func.runFrom_mono rfl (fun _ _ _ same => same) (fun _ _ _ same => same)
      (Nat.le_add_right fuel steps) ran
    rw [merged] at more
    obtain ⟨env, entered, more⟩ := Option.bind_eq_some_iff.1 more
    rw [body, List.append_assoc] at more
    obtain ⟨between, less, middleRan, bound, more⟩ := Func.exists_of_runFrom_append
      (fun instr member => plainly instr (List.mem_append_left _ member)) plain more
    cases less with
    | zero => cases more
    | succ less =>
      rw [List.singleton_append, Func.runFrom_plain notLabel notPhi] at more
      obtain ⟨⟨next, control⟩, last, more⟩ := Option.bind_eq_some_iff.1 more
      refine ⟨next, control, less, Block.exec_eq_some_iff.2 ⟨env, entered, ?_⟩, by omega, ?_⟩
      · rw [body, Instr.execAll_concat_iff plain]
        exact ⟨between, middleRan, last⟩
      · cases control with
        | next => exact absurd rfl (Instr.control_ne_next ends last)
        | jump target => exact more
        | halt value => exact more

/-- A flat run of the code of a flow graph, from the label of a block on. -/
theorem exists_runFrom_flat {machine : Machine} {calls : Calls} {graph : FlowGraph}
    {code : List Instr} (wellFormed : graph.WellFormed) (flat : Flattened graph.blocks code)
    {fuel : Nat} {block : Block} (member : block ∈ graph.blocks) {source : Option String}
    {state : State} {answer : Answer}
    (ran : graph.runFrom machine calls fuel block source state = some answer) (rest : List Instr) :
    ∃ more, ∀ (label : Instr) (previous : Option String), label.action = .label block.name →
      Func.runFrom machine calls code more (label :: (block.instrs ++ rest)) source previous
        state = some answer := by
  induction fuel generalizing block source state rest with
  | zero => cases ran
  | succ fuel fuelIH =>
    rw [FlowGraph.runFrom, Option.bind_eq_bind] at ran
    obtain ⟨⟨next, control⟩, first, ran⟩ := Option.bind_eq_some_iff.1 ran
    have blockFormed := wellFormed.blocks block member
    cases control with
    | next => cases ran
    | jump target =>
      obtain ⟨onward, found, onwardRan⟩ := Option.bind_eq_some_iff.1 ran
      obtain ⟨onwardMember, rfl⟩ := (find?_eq_some_iff wellFormed.nodup_names).1 found
      have runs := fuelIH onwardMember onwardRan
      obtain ⟨label', rest', isLabel', sought⟩ := flat.exists_seek wellFormed.nodup_names
        (fun block member => (wellFormed.blocks block member).unlabelled) onwardMember
      obtain ⟨further, runs⟩ := runs rest'
      obtain ⟨steps, ranBlock⟩ := runFrom_block blockFormed first rest
      refine ⟨further + steps, fun label previous isLabel => ?_⟩
      rw [ranBlock further label previous isLabel, Func.leave, sought, Option.bind_some]
      exact runs label' source isLabel'
    | halt value =>
      obtain ⟨steps, ranBlock⟩ := runFrom_block blockFormed first rest
      refine ⟨0 + steps, fun label previous isLabel => ?_⟩
      rw [ranBlock 0 label previous isLabel]
      exact ran

/-- A flat run of the code of a flow graph that has an answer is a run of the flow graph. -/
theorem exists_runFrom_of_flat {machine : Machine} {calls : Calls} {graph : FlowGraph}
    {code : List Instr} (wellFormed : graph.WellFormed) (flat : Flattened graph.blocks code)
    {fuel : Nat} {block : Block} (member : block ∈ graph.blocks) {label : Instr}
    {rest : List Instr} (isLabel : label.action = .label block.name)
    {source previous : Option String} {state : State} {answer : Answer}
    (ran : Func.runFrom machine calls code fuel (label :: (block.instrs ++ rest)) source previous
      state = some answer) :
    ∃ more, graph.runFrom machine calls more block source state = some answer := by
  induction fuel using Nat.strong_induction_on generalizing block label rest source previous state
    with
  | h fuel fuelIH =>
    have blockFormed := wellFormed.blocks block member
    obtain ⟨next, control, less, first, bound, ran⟩ :=
      exists_of_runFrom_block blockFormed isLabel ran
    cases control with
    | next => cases ran
    | jump target =>
      obtain ⟨code', sought, ran⟩ := Option.bind_eq_some_iff.1 ran
      obtain ⟨onward, onwardMember, rfl⟩ := List.mem_map.1
        (wellFormed.target_mem block member target (blockFormed.jump_mem first))
      obtain ⟨label', rest', isLabel', sought'⟩ := flat.exists_seek wellFormed.nodup_names
        (fun block member => (wellFormed.blocks block member).unlabelled) onwardMember
      obtain rfl := Option.some.inj (sought.symm.trans sought')
      obtain ⟨more, runs⟩ := fuelIH less bound onwardMember isLabel' ran
      have found := (find?_eq_some_iff wellFormed.nodup_names).2 ⟨onwardMember, rfl⟩
      exact ⟨more + 1, by rw [runFrom_of_jump first found, runs]⟩
    | halt value =>
      refine ⟨1, ?_⟩
      rw [FlowGraph.runFrom, first]
      exact ran

/-- A flow graph written out yields what the flow graph yields, and nothing else. -/
theorem yields_flatten_iff {machine : Machine} {calls : Calls} {graph : FlowGraph}
    {function : Func} (wellFormed : graph.WellFormed) (flat : graph.flatten = .ok function)
    {args : List Value} {answer : Answer} :
    function.Yields machine calls args answer ↔ graph.Yields machine calls args answer := by
  obtain ⟨code, flatBlocks, flat⟩ := Attempt.bind_eq_ok.1 flat
  obtain rfl := Except.ok.inj flat
  have flattened := flattened_of_flattenBlocks flatBlocks
  obtain ⟨first, isFirst, firstMember, _⟩ := wellFormed.exists_entry
  obtain ⟨blocks, isBlocks⟩ := List.head?_eq_some_iff.1 isFirst
  obtain ⟨label, rest, isLabel, isCode⟩ : ∃ label rest, label.action = .label first.name ∧
      code = label :: (first.instrs ++ rest) := by
    rw [isBlocks] at flattened
    cases flattened with
    | cons isLabel _ => exact ⟨_, _, isLabel, rfl⟩
  constructor
  · rintro ⟨fuel, ran⟩
    obtain ⟨env, bound, ran⟩ := Option.bind_eq_some_iff.1 ran
    dsimp only at ran
    nth_rewrite 2 [isCode] at ran
    obtain ⟨more, runs⟩ := exists_runFrom_of_flat wellFormed flattened firstMember isLabel ran
    exact ⟨more, Option.bind_eq_some_iff.2 ⟨env, bound,
      Option.bind_eq_some_iff.2 ⟨first, isFirst, runs⟩⟩⟩
  · rintro ⟨fuel, ran⟩
    obtain ⟨env, bound, ran⟩ := Option.bind_eq_some_iff.1 ran
    obtain ⟨other, isOther, ran⟩ := Option.bind_eq_some_iff.1 ran
    obtain rfl := Option.some.inj (isOther.symm.trans isFirst)
    obtain ⟨more, runs⟩ := exists_runFrom_flat wellFormed flattened firstMember ran rest
    refine ⟨more, Option.bind_eq_some_iff.2 ⟨env, bound, ?_⟩⟩
    dsimp only
    nth_rewrite 2 [isCode]
    exact runs label none isLabel

/-- A flow graph can be written out unless keys run out. -/
theorem flatten_cases (graph : FlowGraph) : (∃ function, graph.flatten = .ok function) ∨
    (graph.flatten = .error .keysExhausted ∧ keyLimit ≤ graph.nextKey + graph.blocks.length) := by
  have general : ∀ (blocks : List Block) (graph : FlowGraph),
      (∃ instrs, graph.flattenBlocks blocks = .ok instrs) ∨
      (graph.flattenBlocks blocks = .error .keysExhausted ∧
        keyLimit ≤ graph.nextKey + blocks.length) := by
    intro blocks
    induction blocks with
    | nil => exact fun _ => .inl ⟨[], rfl⟩
    | cons block rest restIH =>
      intro graph
      rw [flattenBlocks, List.length_cons]
      rcases graph.freshKey_cases with given | ⟨failed, many⟩
      · rw [given, Attempt.ok_bind]
        rcases restIH { graph with nextKey := graph.nextKey + 1 } with
          ⟨instrs, flat⟩ | ⟨failed, many⟩
        · exact .inl ⟨_, by dsimp only; rw [flat]; rfl⟩
        · dsimp only at many
          exact .inr ⟨by dsimp only; rw [failed]; rfl, by omega⟩
      · exact .inr ⟨by rw [failed]; rfl, by omega⟩
  rw [flatten]
  rcases general graph.blocks graph with ⟨instrs, flat⟩ | ⟨failed, many⟩
  · exact .inl ⟨_, by rw [flat]; rfl⟩
  · exact .inr ⟨by rw [failed]; rfl, many⟩

end FlowGraph

end Midend
