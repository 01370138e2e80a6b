import Midend.Proofs.FlowGraph.WellFormed
import Midend.Proofs.Semantics.Run

/-! # Simulation

A flow graph refines another one when their blocks can be related such that related blocks, run from
related environments, print the same, go on alike and end in related environments
(`FlowGraph.refines_of_simulation`). Runs of a well-formed flow graph follow its edges
(`Block.WellFormed.jump_mem`). -/

namespace Midend

namespace Instr

/-- What a merge selects: the value of the variable that it takes from a block. -/
theorem select_eq_some_iff {source : String} {env : Env} {phi : Instr} {write : String × Value} :
    phi.select source env = some write ↔ ∃ arg, phi.dest? = some write.1 ∧
      phi.incoming.lookup source = some arg ∧ env arg = some write.2 := by
  unfold select
  simp only [Option.bind_eq_bind, Option.bind_eq_some_iff, Option.pure_def, Option.some.injEq]
  constructor
  · rintro ⟨dest, isDest, arg, isArg, value, isValue, rfl⟩
    exact ⟨arg, isDest, isArg, isValue⟩
  · rintro ⟨arg, isDest, isArg, isValue⟩
    exact ⟨write.1, isDest, arg, isArg, write.2, isValue, rfl⟩

/-- What is found in a list of pairs is in it. -/
theorem mem_of_lookup {β : Type} {list : List (String × β)} {key : String} {value : β}
    (found : list.lookup key = some value) : (key, value) ∈ list := by
  obtain ⟨before, after, rfl, _⟩ := List.lookup_eq_some_iff.1 found
  exact List.mem_append_right _ (List.mem_cons_self ..)

/-- What a merge takes from a block is one of its arguments. -/
theorem mem_args_of_lookup {phi : Instr} {source arg : String}
    (found : phi.incoming.lookup source = some arg) : arg ∈ phi.args :=
  (List.of_mem_zip (mem_of_lookup found)).2

/-- What merges that are entered from a block select; each variable is written once. -/
theorem exists_selected {source : String} {phis : List Instr} {env entered : Env}
    (nodup : (phis.filterMap dest?).Nodup) (ran : enter phis (some source) env = some entered)
    {phi : Instr} (member : phi ∈ phis) :
    ∃ dest arg value, phi.dest? = some dest ∧ phi.incoming.lookup source = some arg ∧
      env arg = some value ∧ entered dest = some value := by
  rw [enter_some] at ran
  obtain ⟨writes, selected, rfl⟩ := Option.map_eq_some_iff.1 ran
  have all := mapM_eq_some_iff.1 selected
  have dests_eq : phis.filterMap dest? = writes.map Prod.fst := by
    clear nodup ran selected member
    induction all with
    | nil => rfl
    | cons head _ tailIH =>
      obtain ⟨_, isDest, _⟩ := select_eq_some_iff.1 head
      rw [List.filterMap_cons_some isDest, List.map_cons, tailIH]
  obtain ⟨⟨dest, value⟩, inside, isSelected⟩ := exists_of_forall₂_left all member
  obtain ⟨arg, isDest, isArg, isValue⟩ := select_eq_some_iff.1 isSelected
  exact ⟨dest, arg, value, isDest, isArg, isValue, Env.assign_of_mem (dests_eq ▸ nodup) inside env⟩

/-- Merges select alike in environments that hold the same values for what they read. -/
theorem mapM_select_of_agree {source : String} {phis : List Instr} {env mirror : Env}
    (agree : ∀ phi ∈ phis, ∀ arg, phi.incoming.lookup source = some arg →
      ∀ value, env arg = some value → mirror arg = some value)
    {writes : List (String × Value)} (selected : phis.mapM (select source env) = some writes) :
    phis.mapM (select source mirror) = some writes := by
  induction phis generalizing writes with
  | nil => exact selected
  | cons phi rest restIH =>
    rw [List.mapM_cons] at selected ⊢
    obtain ⟨write, atPhi, selected⟩ := Option.bind_eq_some_iff.1 selected
    obtain ⟨others, atRest, selected⟩ := Option.bind_eq_some_iff.1 selected
    obtain ⟨arg, isDest, isArg, isValue⟩ := select_eq_some_iff.1 atPhi
    have atMirror : phi.select source mirror = some write := select_eq_some_iff.2
      ⟨arg, isDest, isArg, agree phi (List.mem_cons_self ..) arg isArg _ isValue⟩
    rw [atMirror, restIH (fun other member => agree other (List.mem_cons_of_mem _ member)) atRest]
    exact selected

/-- Environments that agree on some variables still agree after merges that read only these. -/
theorem enter_of_agree {base : String → Prop} {phis : List Instr} {source : Option String}
    {env mirror entered : Env}
    (agree : ∀ var, base var → ∀ value, env var = some value → mirror var = some value)
    (args : ∀ phi ∈ phis, ∀ arg ∈ phi.args, base arg)
    (ran : enter phis source env = some entered) :
    ∃ last, enter phis source mirror = some last ∧
      ∀ var, base var → ∀ value, entered var = some value → last var = some value := by
  cases source with
  | none =>
    unfold enter at ran ⊢
    split at ran
    · rename_i empty
      obtain rfl := Option.some.inj ran
      exact ⟨mirror, if_pos empty, agree⟩
    · cases ran
  | some source =>
    rw [enter_some] at ran ⊢
    obtain ⟨writes, selected, rfl⟩ := Option.map_eq_some_iff.1 ran
    rw [mapM_select_of_agree (fun phi member arg isArg =>
      agree arg (args phi member arg (mem_args_of_lookup isArg))) selected]
    exact ⟨mirror.assign writes, rfl, fun var isBase value =>
      Env.assign_mono (agree var isBase value)⟩

/-- An instruction leaves alone what it does not write. -/
theorem exec_unwritten {machine : Machine} {calls : Calls} {instr : Instr} {state next : State}
    {control : Control} (ran : instr.exec machine calls state = some (next, control)) {var : String}
    (absent : instr.dest? ≠ some var) : next.env var = state.env var := by
  obtain ⟨values, effect, _, _, rfl, _⟩ := exec_eq_some_iff.1 ran
  cases isDest : instr.dest? with
  | none => rfl
  | some dest =>
    cases isValue : effect.value with
    | none => simp [State.after, isValue]
    | some value =>
      have apart : var ≠ dest := fun same => absent (same ▸ isDest)
      simp [State.after, isValue, Env.set_of_ne _ _ apart]

/-- Instructions leave alone what they do not write. -/
theorem execAll_unwritten {machine : Machine} {calls : Calls} {instrs : List Instr}
    {state next : State} {control : Control}
    (ran : execAll machine calls instrs state = some (next, control)) {var : String}
    (absent : var ∉ instrs.filterMap dest?) : next.env var = state.env var := by
  induction instrs generalizing state with
  | nil => rw [(Prod.mk.inj (Option.some.inj ran)).1]
  | cons instr rest restIH =>
    rw [execAll_cons] at ran
    obtain ⟨⟨between, goes⟩, first, ran⟩ := Option.bind_eq_some_iff.1 ran
    have atFirst := exec_unwritten first fun isDest => absent (by
      rw [List.filterMap_cons_some isDest]
      exact List.mem_cons_self ..)
    have notRest : var ∉ rest.filterMap dest? := fun inside => absent
      ((List.sublist_cons_self instr rest).filterMap dest? |>.subset inside)
    split at ran
    · exact (restIH ran notRest).trans atFirst
    · rw [← (Prod.mk.inj (Option.some.inj ran)).1]
      exact atFirst

/-- Merges leave alone what they do not write. -/
theorem enter_unwritten {phis : List Instr} {source : Option String} {env entered : Env}
    (ran : enter phis source env = some entered) {var : String}
    (absent : var ∉ phis.filterMap dest?) : entered var = env var := by
  cases source with
  | none =>
    unfold enter at ran
    split at ran
    · rw [Option.some.inj ran]
    · cases ran
  | some source =>
    rw [enter_some] at ran
    obtain ⟨writes, selected, rfl⟩ := Option.map_eq_some_iff.1 ran
    refine Env.assign_of_notMem (fun inside => absent ?_) env
    obtain ⟨write, member, rfl⟩ := List.mem_map.1 inside
    obtain ⟨phi, isPhi, isSelected⟩ := exists_of_forall₂_right (mapM_eq_some_iff.1 selected) member
    obtain ⟨_, isDest, _⟩ := select_eq_some_iff.1 isSelected
    exact List.mem_filterMap.2 ⟨phi, isPhi, isDest⟩

/-- A list that is ended by its last instruction runs up to there and then runs that instruction. -/
theorem execAll_concat_iff {machine : Machine} {calls : Calls} {front : List Instr}
    {terminator : Instr} {state next : State} {control : Control}
    (plain : ∀ instr ∈ front, instr.isTerminator = false) :
    execAll machine calls (front ++ [terminator]) state = some (next, control) ↔
      ∃ between, execAll machine calls front state = some (between, .next) ∧
        terminator.exec machine calls between = some (next, control) := by
  have single : ∀ between, execAll machine calls [terminator] between =
      terminator.exec machine calls between := by
    intro between
    rw [execAll_cons]
    cases terminator.exec machine calls between with
    | none => rfl
    | some step =>
      rw [Option.bind_some, execAll]
      split
      · rename_i goesOn
        rw [← goesOn]
      · rfl
  rw [execAll_append, Option.bind_eq_some_iff]
  constructor
  · rintro ⟨⟨between, goes⟩, ran, last⟩
    obtain rfl := control_eq_next_of_execAll plain ran
    exact ⟨between, ran, by rwa [if_pos rfl, single] at last⟩
  · rintro ⟨between, ran, last⟩
    exact ⟨(between, .next), ran, by rwa [if_pos rfl, single]⟩

/-- What ends a block does not go on with the next instruction. -/
theorem control_ne_next {machine : Machine} {calls : Calls} {instr : Instr} {state next : State}
    {control : Control} (ends : instr.isTerminator = true)
    (ran : instr.exec machine calls state = some (next, control)) : control ≠ .next := by
  obtain ⟨values, effect, _, performed, _, goes⟩ := exec_eq_some_iff.1 ran
  rw [← goes, Ne, Action.control_eq_next_iff performed]
  intro harmless
  unfold isTerminator op? at ends
  split at ends
  · rename_i op isOp
    rw [harmless op isOp] at ends
    cases ends
  · cases ends

/-- What ends a block leads to one of its labels, or ends the function and has none. -/
theorem jumps_or_halts {machine : Machine} {calls : Calls} {instr : Instr} {state next : State}
    {control : Control} (checked : instr.Checked) (ends : instr.isTerminator = true)
    (ran : instr.exec machine calls state = some (next, control)) :
    (∃ label ∈ instr.labels, control = .jump label) ∨
      (instr.labels = [] ∧ ∃ value, control = .halt value) := by
  obtain ⟨values, effect, _, performed, _, rfl⟩ := exec_eq_some_iff.1 ran
  rcases terminator_cases checked ends with ⟨operands, target, action, _, labels⟩ |
    ⟨operands, condition, positive, negative, action, _, labels⟩ | ⟨operands, action, labels⟩
  · have labels_eq : instr.labels = [target] := by rw [Instr.labels, action]; exact labels
    rw [action, Action.perform, Action.performEffect, labels] at performed
    obtain rfl := Option.some.inj performed
    exact .inl ⟨target, by rw [labels_eq]; exact List.mem_cons_self .., rfl⟩
  · have labels_eq : instr.labels = [positive, negative] := by
      rw [Instr.labels, action]
      exact labels
    rw [action, Action.perform, Action.performEffect, labels] at performed
    split at performed
    · obtain rfl := Option.some.inj performed
      exact .inl ⟨positive, by rw [labels_eq]; exact List.mem_cons_self .., rfl⟩
    · obtain rfl := Option.some.inj performed
      exact .inl ⟨negative, by rw [labels_eq]; simp, rfl⟩
    · cases performed
  · refine .inr ⟨by rw [Instr.labels, action]; exact labels, ?_⟩
    rw [action, Action.perform, Action.performEffect] at performed
    split at performed
    · split at performed
      · obtain rfl := Option.some.inj performed
        exact ⟨_, rfl⟩
      · cases performed
    · obtain rfl := Option.some.inj performed
      exact ⟨_, rfl⟩

/-- What ends a block leads to one of its labels. -/
theorem jump_mem_labels {machine : Machine} {calls : Calls} {instr : Instr} {state next : State}
    {label : String} (checked : instr.Checked) (ends : instr.isTerminator = true)
    (ran : instr.exec machine calls state = some (next, .jump label)) : label ∈ instr.labels := by
  rcases jumps_or_halts checked ends ran with ⟨other, member, ⟨⟩⟩ | ⟨_, _, ⟨⟩⟩
  exact member

/-- What ends a function names no label. -/
theorem labels_of_halt {machine : Machine} {calls : Calls} {instr : Instr} {state next : State}
    {value : Option Value} (checked : instr.Checked) (ends : instr.isTerminator = true)
    (ran : instr.exec machine calls state = some (next, .halt value)) : instr.labels = [] := by
  rcases jumps_or_halts checked ends ran with ⟨_, _, ⟨⟩⟩ | ⟨none, _⟩
  exact none

/-- Keys have no part in what instructions do. -/
theorem execAll_of_rekeyed {machine : Machine} {calls : Calls} {instrs keyed : List Instr}
    (rekeyed : List.Forall₂ FlowGraph.Rekeyed instrs keyed) (state : State) :
    execAll machine calls keyed state = execAll machine calls instrs state := by
  induction rekeyed generalizing state with
  | nil => rfl
  | cons isKeyed _ restIH =>
    obtain ⟨key, rfl⟩ := isKeyed
    rw [execAll_cons, execAll_cons]
    congr 1
    funext step
    rw [restIH]

end Instr

namespace Block

/-- A block runs its merges and then its body. -/
theorem exec_eq_some_iff {machine : Machine} {calls : Calls} {block : Block}
    {source : Option String} {state next : State} {control : Control} :
    block.exec machine calls source state = some (next, control) ↔
      ∃ env, Instr.enter block.phis source state.env = some env ∧
        Instr.execAll machine calls block.body { state with env } = some (next, control) := by
  rw [exec, Option.bind_eq_bind, Option.bind_eq_some_iff]

/-- A block leaves alone what it does not write. -/
theorem exec_unwritten {machine : Machine} {calls : Calls} {block : Block} {source : Option String}
    {state next : State} {control : Control}
    (ran : block.exec machine calls source state = some (next, control)) {var : String}
    (absent : var ∉ block.defs) : next.env var = state.env var := by
  obtain ⟨env, entered, ran⟩ := exec_eq_some_iff.1 ran
  rw [Block.defs, ← block.phis_append_body, List.filterMap_append, List.mem_append, not_or] at absent
  exact (Instr.execAll_unwritten ran absent.2).trans (Instr.enter_unwritten entered absent.1)

/-- A block without merges runs through all its instructions. -/
theorem exec_of_unmerged {machine : Machine} {calls : Calls} {block : Block}
    (unmerged : ∀ instr ∈ block.instrs, instr.isPhi = false) (source : Option String)
    (state : State) :
    block.exec machine calls source state = Instr.execAll machine calls block.instrs state := by
  obtain ⟨noPhis, body⟩ := Block.phis_of_split (List.nil_append block.instrs).symm (by simp) unmerged
  rw [Block.exec, noPhis, body]
  rfl

/-- A well-formed block leads on to one of its successors. -/
theorem WellFormed.jump_mem {machine : Machine} {calls : Calls} {block : Block}
    (wellFormed : block.WellFormed) {source : Option String} {state next : State} {label : String}
    (ran : block.exec machine calls source state = some (next, .jump label)) :
    label ∈ block.successors := by
  obtain ⟨env, _, ran⟩ := exec_eq_some_iff.1 ran
  obtain ⟨middle, terminator, body, split, plain, ends⟩ := wellFormed.exists_body
  rw [body, Instr.execAll_concat_iff plain] at ran
  obtain ⟨between, _, last⟩ := ran
  have checked := wellFormed.checked terminator (by rw [split]; simp)
  rw [successors_of_terminator (terminator?_of_split split ends) checked ends, List.mem_eraseDups]
  exact Instr.jump_mem_labels checked ends last

end Block

namespace FlowGraph

/-- A relation between blocks that run side by side, with the block that control came from and the
environments on arrival. -/
structure Simulation (machine : Machine) (calls : Calls) (graph other : FlowGraph)
    (related : Block → Block → Option String → Env → Env → Prop) : Prop where
  /-- Related blocks have one name. -/
  name_eq : ∀ {block image source env mirror}, related block image source env mirror →
    image.name = block.name
  /-- The entries are related at the start of a call. -/
  start : ∀ {args env first}, bindParams graph.params args = some env →
    graph.blocks.head? = some first → ∃ mirror image, bindParams other.params args = some mirror ∧
      other.blocks.head? = some image ∧ related first image none env mirror
  /-- Related blocks run alike and lead on to related blocks. -/
  step : ∀ {block image source env mirror lines next control},
    related block image source env mirror →
    block.exec machine calls source ⟨env, lines⟩ = some (next, control) →
    ∃ last, image.exec machine calls source ⟨mirror, lines⟩ = some (⟨last, next.lines⟩, control) ∧
      ∀ label target, control = .jump label → graph.find? label = some target →
        ∃ onward, other.find? label = some onward ∧
          related target onward (some block.name) next.env last

namespace Simulation

variable {machine : Machine} {calls : Calls} {graph other : FlowGraph}
  {related : Block → Block → Option String → Env → Env → Prop}

/-- Related blocks run to the same answer. -/
theorem runFrom_eq (simulation : Simulation machine calls graph other related) {fuel : Nat}
    {block image : Block} {source : Option String} {env mirror : Env} {lines : List String}
    {answer : Answer} (blocks : related block image source env mirror)
    (ran : graph.runFrom machine calls fuel block source ⟨env, lines⟩ = some answer) :
    other.runFrom machine calls fuel image source ⟨mirror, lines⟩ = some answer := by
  induction fuel generalizing block image source env mirror lines with
  | zero => cases ran
  | succ fuel fuelIH =>
    rw [FlowGraph.runFrom, Option.bind_eq_bind] at ran ⊢
    obtain ⟨⟨next, control⟩, step, ran⟩ := Option.bind_eq_some_iff.1 ran
    obtain ⟨last, imageStep, onward⟩ := simulation.step blocks step
    rw [imageStep, Option.bind_some]
    cases control with
    | next => cases ran
    | jump label =>
      obtain ⟨target, found, ran⟩ := Option.bind_eq_some_iff.1 ran
      obtain ⟨image', foundImage, blocks'⟩ := onward label target rfl found
      refine Option.bind_eq_some_iff.2 ⟨image', foundImage, ?_⟩
      rw [simulation.name_eq blocks]
      exact fuelIH blocks' ran
    | halt value => exact ran

end Simulation

/-- A flow graph that simulates another one refines it. -/
theorem refines_of_simulation {machine : Machine} {graph other : FlowGraph}
    (related : Calls → Block → Block → Option String → Env → Env → Prop)
    (simulation : ∀ calls, Simulation machine calls graph other (related calls)) :
    graph.Refines machine other := by
  intro calls args answer yields
  obtain ⟨fuel, ran⟩ := yields
  obtain ⟨env, bound, ran⟩ := Option.bind_eq_some_iff.1 ran
  obtain ⟨first, isFirst, ran⟩ := Option.bind_eq_some_iff.1 ran
  obtain ⟨mirror, image, boundOther, isImage, blocks⟩ := (simulation calls).start bound isFirst
  refine ⟨fuel, Option.bind_eq_some_iff.2 ⟨mirror, boundOther, ?_⟩⟩
  exact Option.bind_eq_some_iff.2 ⟨image, isImage, (simulation calls).runFrom_eq blocks ran⟩

/-- A flow graph whose blocks are replaced one by one refines another one when each new block, run
from an environment that fits, does what the old one does and leaves one that fits the next. -/
theorem refines_of_blockwise {machine : Machine} {graph other : FlowGraph}
    (wellFormed : graph.WellFormed) (params_eq : other.params = graph.params)
    {replaces : Block → Block → Prop}
    (images : List.Forall₂ replaces graph.blocks other.blocks)
    (name_eq : ∀ block image, replaces block image → image.name = block.name)
    (fits : Block → Option String → Env → Env → Prop)
    (start : ∀ args env first, bindParams graph.params args = some env →
      first.name = graph.entryName → fits first none env env)
    (step : ∀ calls block image source env mirror lines next control, block ∈ graph.blocks →
      replaces block image → fits block source env mirror →
      block.exec machine calls source ⟨env, lines⟩ = some (next, control) →
      ∃ last, image.exec machine calls source ⟨mirror, lines⟩ =
          some (⟨last, next.lines⟩, control) ∧
        ∀ target ∈ graph.blocks, graph.Leads block.name target.name →
          fits target (some block.name) next.env last) :
    graph.Refines machine other := by
  refine refines_of_simulation (fun _ block image source env mirror => block ∈ graph.blocks ∧
    replaces block image ∧ fits block source env mirror) fun calls => ⟨?_, ?_, ?_⟩
  · exact fun related => name_eq _ _ related.2.1
  · intro args env first bound isFirst
    obtain ⟨rest, isBlocks⟩ := List.head?_eq_some_iff.1 isFirst
    rw [isBlocks, List.forall₂_cons_left_iff] at images
    obtain ⟨image, others, isImage, _, isOther⟩ := images
    refine ⟨env, image, params_eq ▸ bound, by rw [isOther, List.head?_cons],
      List.mem_of_mem_head? isFirst, isImage, start args env first bound ?_⟩
    rw [entryName, isBlocks]
  · rintro block image source env mirror lines next control ⟨member, isImage, arrives⟩ ran
    obtain ⟨last, ranImage, onward⟩ :=
      step calls block image source env mirror lines next control member isImage arrives ran
    refine ⟨last, ranImage, ?_⟩
    rintro label target rfl found
    obtain ⟨targetMember, rfl⟩ := (find?_eq_some_iff wellFormed.nodup_names).1 found
    obtain ⟨targetImage, imageMember, isTarget⟩ := exists_of_forall₂_left images targetMember
    have names_eq : other.names = graph.names := by
      rw [names, names]
      exact map_name_of_forall₂ images name_eq
    have leads := leads_of_mem wellFormed.nodup_names member
      ((wellFormed.blocks block member).jump_mem ran)
    refine ⟨targetImage, (find?_eq_some_iff (names_eq ▸ wellFormed.nodup_names)).2
      ⟨imageMember, name_eq _ _ isTarget⟩, targetMember, isTarget, onward target targetMember leads⟩

/-! ## Steps of several blocks -/

/-- A relation between blocks of two flow graphs, with the blocks that control came from and the
environments on arrival, along which one follows the other: where one goes on to a block, the other
gets to a related one, possibly through others. A block that is gone on to is one that is entered. -/
structure Following (machine : Machine) (calls : Calls) (graph other : FlowGraph)
    (related : Block → Block → Option String → Option String → Env → Env → Prop) : Prop where
  /-- The entries are related at the start of a call. -/
  start : ∀ {args env first}, bindParams graph.params args = some env →
    graph.blocks.head? = some first → ∃ mirror image, bindParams other.params args = some mirror ∧
      other.blocks.head? = some image ∧ related first image none none env mirror
  /-- A block that is related to one that returns returns too. -/
  halt : ∀ {block image source origin env mirror lines next value},
    related block image source origin env mirror →
    block.exec machine calls source ⟨env, lines⟩ = some (next, .halt value) →
    ∃ last, image.exec machine calls origin ⟨mirror, lines⟩ =
      some (⟨last, next.lines⟩, .halt value)
  /-- A block that is related to one that goes on goes on to one that is related to the next. -/
  jump : ∀ {block image source origin env mirror lines next label target entered},
    related block image source origin env mirror →
    block.exec machine calls source ⟨env, lines⟩ = some (next, .jump label) →
    graph.find? label = some target →
    Instr.enter target.phis (some block.name) next.env = some entered →
    ∃ steps onward through last,
      (∀ fuel, other.runFrom machine calls (fuel + steps) image origin ⟨mirror, lines⟩ =
        other.runFrom machine calls fuel onward through ⟨last, next.lines⟩) ∧
      related target onward (some block.name) through next.env last

/-- A run goes on where a block leads. -/
theorem runFrom_of_jump {machine : Machine} {calls : Calls} {graph : FlowGraph}
    {block target : Block} {source : Option String} {state next : State} {label : String}
    (ran : block.exec machine calls source state = some (next, .jump label))
    (found : graph.find? label = some target) (fuel : Nat) :
    graph.runFrom machine calls (fuel + 1) block source state =
      graph.runFrom machine calls fuel target (some block.name) next := by
  rw [FlowGraph.runFrom, ran, Option.bind_eq_bind, Option.bind_some]
  dsimp only
  rw [found]
  rfl

/-- Related blocks run to the same answer. -/
theorem Following.exists_runFrom {machine : Machine} {calls : Calls} {graph other : FlowGraph}
    {related : Block → Block → Option String → Option String → Env → Env → Prop}
    (following : Following machine calls graph other related) {fuel : Nat} {block image : Block}
    {source origin : Option String} {env mirror : Env} {lines : List String} {answer : Answer}
    (blocks : related block image source origin env mirror)
    (ran : graph.runFrom machine calls fuel block source ⟨env, lines⟩ = some answer) :
    ∃ more, other.runFrom machine calls more image origin ⟨mirror, lines⟩ = some answer := by
  induction fuel generalizing block image source origin env mirror lines with
  | zero => cases ran
  | succ fuel fuelIH =>
    rw [FlowGraph.runFrom, Option.bind_eq_bind] at ran
    obtain ⟨⟨next, control⟩, step, ran⟩ := Option.bind_eq_some_iff.1 ran
    cases control with
    | next => cases ran
    | jump label =>
      obtain ⟨target, found, ran⟩ := Option.bind_eq_some_iff.1 ran
      -- The run goes on, so the next block is entered.
      obtain ⟨entered, isEntered⟩ : ∃ entered,
          Instr.enter target.phis (some block.name) next.env = some entered := by
        cases fuel with
        | zero => cases ran
        | succ fuel =>
          rw [FlowGraph.runFrom, Option.bind_eq_bind] at ran
          obtain ⟨⟨_, _⟩, onward, _⟩ := Option.bind_eq_some_iff.1 ran
          obtain ⟨entered, isEntered, _⟩ := Block.exec_eq_some_iff.1 onward
          exact ⟨entered, isEntered⟩
      obtain ⟨steps, onward, through, last, runs, related⟩ :=
        following.jump blocks step found isEntered
      obtain ⟨more, ranOnward⟩ := fuelIH related ran
      exact ⟨more + steps, by rw [runs, ranOnward]⟩
    | halt value =>
      obtain ⟨last, halted⟩ := following.halt blocks step
      refine ⟨1, ?_⟩
      rw [FlowGraph.runFrom, halted, Option.bind_eq_bind, Option.bind_some]
      exact ran

/-- A flow graph that follows another one refines it. -/
theorem refines_of_following {machine : Machine} {graph other : FlowGraph}
    (related : Block → Block → Option String → Option String → Env → Env → Prop)
    (following : ∀ calls, Following machine calls graph other related) :
    graph.Refines machine other := by
  rintro calls args answer ⟨fuel, ran⟩
  obtain ⟨env, bound, ran⟩ := Option.bind_eq_some_iff.1 ran
  obtain ⟨first, isFirst, ran⟩ := Option.bind_eq_some_iff.1 ran
  obtain ⟨mirror, image, boundOther, isImage, blocks⟩ := (following calls).start bound isFirst
  obtain ⟨more, ranOther⟩ := (following calls).exists_runFrom blocks ran
  refine ⟨more, Option.bind_eq_some_iff.2 ⟨mirror, boundOther, ?_⟩⟩
  exact Option.bind_eq_some_iff.2 ⟨image, isImage, ranOther⟩

end FlowGraph

end Midend
