import Midend.Dataflow.Constants
import Midend.Dataflow.Definitions
import Midend.Proofs.Dataflow.Paths
import Midend.Proofs.FlowGraph.Rebuild
import Midend.Proofs.Sorted

/-! # What reaches a block

The three analyses of what has been written find what paths bring along. A value of a variable
reaches a block if a path leads there from where the variable gets it, and nothing on the way writes
the variable again: then reaching definitions list it (`ReachingDefinitions.tracks`), and the
variable is constant if only writes of one constant do so (`ConstantPropagation.tracks`). A variable
is defined where any path leads from a write of it (`DefinedVariables.tracks`). -/

namespace Midend

/-! ## The last write of a block -/

/-- The instruction at a place writes a variable, and no later one does. -/
def WritesLast (instrs : List Instr) (var : String) (place : Nat) (instr : Instr) : Prop :=
  ∃ rest, instrs.drop place = instr :: rest ∧ instr.dest? = some var ∧
    ∀ other ∈ rest, other.dest? ≠ some var

/-- No instruction of an empty list writes. -/
theorem not_writesLast_nil {var : String} {place : Nat} {instr : Instr} :
    ¬WritesLast [] var place instr := by
  rintro ⟨rest, split, -⟩
  rw [List.drop_nil] at split
  cases split

/-- The first instruction writes last if no other one writes. -/
theorem writesLast_cons_zero {first instr : Instr} {rest : List Instr} {var : String} :
    WritesLast (first :: rest) var 0 instr ↔
      instr = first ∧ first.dest? = some var ∧ ∀ other ∈ rest, other.dest? ≠ some var := by
  constructor
  · rintro ⟨later, split, writes, unwritten⟩
    obtain ⟨rfl, rfl⟩ := List.cons.inj split
    exact ⟨rfl, writes, unwritten⟩
  · rintro ⟨rfl, writes, unwritten⟩
    exact ⟨rest, rfl, writes, unwritten⟩

/-- What writes last is one of the instructions. -/
theorem WritesLast.getElem? {instrs : List Instr} {var : String} {place : Nat} {instr : Instr}
    (writes : WritesLast instrs var place instr) :
    instrs[place]? = some instr ∧ instr.dest? = some var := by
  obtain ⟨rest, split, isWritten, _⟩ := writes
  refine ⟨?_, isWritten⟩
  rw [← List.head?_drop, split]
  rfl

/-- If states have a fact after an instruction that writes a variable as the instruction says, and
after any other one as before, then a block decides it by the last write, and without one keeps it. -/
theorem foldl_writes_iff {σ : Type} {has : σ → Prop} {var : String} {good : Instr → Nat → Prop}
    {step : σ → Instr → Nat → σ} (told : ∀ state instr place,
      has (step state instr place) ↔
        (instr.dest? = some var ∧ good instr place) ∨ (instr.dest? ≠ some var ∧ has state))
    (instrs : List Instr) (start : Nat) (state : σ) :
    has ((instrs.zipIdx start).foldl (fun state entry => step state entry.1 entry.2) state) ↔
      (∃ place instr, WritesLast instrs var place instr ∧ good instr (start + place)) ∨
        ((∀ instr ∈ instrs, instr.dest? ≠ some var) ∧ has state) := by
  induction instrs generalizing start state with
  | nil => simp [not_writesLast_nil]
  | cons first rest restIH =>
    rw [List.zipIdx_cons, List.foldl_cons, restIH, told, List.forall_mem_cons]
    -- A write further on hides the one of the first instruction.
    constructor
    · rintro (⟨place, instr, writes, isGood⟩ | ⟨unwritten, ⟨writes, isGood⟩ | ⟨apart, held⟩⟩)
      · rw [Nat.add_assoc, Nat.add_comm 1] at isGood
        exact .inl ⟨place + 1, instr, writes, isGood⟩
      · exact .inl ⟨0, first, writesLast_cons_zero.2 ⟨rfl, writes, unwritten⟩, isGood⟩
      · exact .inr ⟨⟨apart, unwritten⟩, held⟩
    · rintro (⟨place, instr, writes, isGood⟩ | ⟨⟨apart, unwritten⟩, held⟩)
      · cases place with
        | zero =>
          obtain ⟨rfl, writes, unwritten⟩ := writesLast_cons_zero.1 writes
          exact .inr ⟨unwritten, .inl ⟨writes, isGood⟩⟩
        | succ place =>
          rw [← Nat.add_assoc, Nat.add_right_comm] at isGood
          exact .inl ⟨place, instr, writes, isGood⟩
      · exact .inr ⟨unwritten, .inr ⟨apart, held⟩⟩

/-- The variables that no instruction of a block writes. -/
theorem Block.not_mem_defs_iff {block : Block} {var : String} :
    var ∉ block.defs ↔ ∀ instr ∈ block.instrs, instr.dest? ≠ some var := by
  simp only [Block.defs, List.mem_filterMap, not_exists, not_and, ne_eq]

/-! ## Reaching a block -/

namespace FlowGraph

/-- Nothing leads to a block of a flow graph. -/
def Source (graph : FlowGraph) (block : Block) : Prop :=
  block ∈ graph.blocks ∧ ∀ other, ¬graph.Links other block

/-- The value that a parameter has at the start reaches a block: a path leads there from a block that
nothing leads to, and no block on the way writes the parameter. -/
def ParamReaches (graph : FlowGraph) (var : String) (block : Block) : Prop :=
  var ∈ graph.paramNames ∧ ∃ origin earlier, graph.Source origin ∧
    Path graph.Links origin (block :: earlier) block ∧ ∀ other ∈ earlier, var ∉ other.defs

/-- The value that an instruction of a block gives a variable reaches a block: no later instruction of
its block writes the variable, and no block does on a path from a successor. -/
def WriteReaches (graph : FlowGraph) (var : String) (source : Block) (place : Nat) (instr : Instr)
    (block : Block) : Prop :=
  WritesLast source.instrs var place instr ∧ ∃ first earlier, graph.Links source first ∧
    Path graph.Links first (block :: earlier) block ∧ ∀ other ∈ earlier, var ∉ other.defs

/-- The instruction whose value reaches a block writes the variable. -/
theorem WriteReaches.writes {graph : FlowGraph} {var : String} {source block : Block} {place : Nat}
    {instr : Instr} (reaches : graph.WriteReaches var source place instr block) :
    instr.dest? = some var := by
  obtain ⟨⟨_, _, writes, _⟩, _⟩ := reaches
  exact writes

/-- Some value of a variable reaches a block. -/
def SomeReaches (graph : FlowGraph) (var : String) (block : Block) : Prop :=
  graph.ParamReaches var block ∨
    ∃ source place instr, graph.WriteReaches var source place instr block

/-- Whatever value of a variable reaches a block is that of an instruction which sets it to a
constant. -/
def OnlyReaches (graph : FlowGraph) (var : String) (value : Literal) (block : Block) : Prop :=
  ¬graph.ParamReaches var block ∧ ∀ source place instr,
    graph.WriteReaches var source place instr block → ∃ ty, instr.action = .const var ty value

end FlowGraph

/-! ## Facts about what was written -/

namespace Analysis

variable {σ : Type} {analysis : Analysis σ} {graph : FlowGraph} {block : Block} {var : String}
  {has : σ → Prop}

/-- A fact of the last write of a variable arrives at a block with a parameter that has it, or with a
write that has it. -/
theorem finds_writes_iff (isForward : analysis.direction = .forward)
    (good : Block → Instr → Nat → Prop) :
    analysis.Finds graph has
        (fun source => ∃ place instr, WritesLast source.instrs var place instr ∧
          good source instr place)
        (fun source => var ∉ source.defs) (fun _ _ => False) block ↔
      (has analysis.boundary ∧ ∃ origin earlier, graph.Source origin ∧
        Path graph.Links origin (block :: earlier) block ∧ ∀ other ∈ earlier, var ∉ other.defs) ∨
      ∃ source place instr, good source instr place ∧
        graph.WriteReaches var source place instr block := by
  unfold Finds
  rw [isForward, arrives_iff_path]
  refine or_congr ⟨?_, ?_⟩ ⟨?_, ?_⟩
  · rintro ⟨origin, earlier, ⟨member, unfed, held⟩, path, kept⟩
    exact ⟨held, origin, earlier, ⟨member, unfed⟩, path, kept⟩
  · rintro ⟨held, origin, earlier, ⟨member, unfed⟩, path, kept⟩
    exact ⟨origin, earlier, ⟨member, unfed, held⟩, path, kept⟩
  · rintro ⟨source, first, earlier, links, isSent, path, kept⟩
    obtain ⟨place, instr, writes, isGood⟩ := isSent.resolve_left id
    exact ⟨source, place, instr, isGood, writes, first, earlier, links, path, kept⟩
  · rintro ⟨source, place, instr, isGood, writes, first, earlier, links, path, kept⟩
    exact ⟨source, first, earlier, links, .inr ⟨place, instr, writes, isGood⟩, path, kept⟩

end Analysis

namespace ReachingDefinitions

/-- Reaching a block is a fact about a definition that an instruction decides: one that writes the
variable gives the definition of its place, and no other one. -/
theorem mem_step_iff {name : String} {definitions : SortedSet Definition} {instr : Instr}
    {place : Nat} {definition : Definition} :
    definition ∈ step name definitions instr place ↔
      (instr.dest? = some definition.var ∧ definition.site = .instr name place) ∨
        (instr.dest? ≠ some definition.var ∧ definition ∈ definitions) := by
  unfold step
  cases writes : instr.dest? with
  | none => simp
  | some dest =>
    obtain ⟨var, site⟩ := definition
    simp only [SortedSet.mem_insert, SortedSet.mem_filter, decide_eq_true_eq, Definition.mk.injEq,
      Option.some.injEq, ne_eq, @eq_comm _ dest]
    tauto

/-- That a definition reaches is a fact, which the last write of a block decides. -/
theorem tracks (graph : FlowGraph) (definition : Definition) :
    (analysis graph).Tracks (definition ∈ ·)
      (fun source => ∃ place instr, WritesLast source.instrs definition.var place instr ∧
        definition.site = .instr source.name place)
      (fun source => definition.var ∉ source.defs) (fun _ _ => False) := by
  refine ⟨SortedSet.not_mem_empty _, fun states => ?_, fun block definitions => ?_,
    fun source target definitions => ?_⟩
  · exact SortedSet.mem_unionAll.trans (or_iff_right (SortedSet.not_mem_empty definition))
  · have decided := @foldl_writes_iff _ (definition ∈ ·) definition.var
      (fun _ place => definition.site = .instr block.name place) (step block.name)
      (fun _ _ _ => mem_step_iff) block.instrs 0 definitions
    simp only [Nat.zero_add, ← Block.not_mem_defs_iff] at decided
    exact decided
  · exact (or_iff_right id).symm

variable {graph : FlowGraph} {visits : Nat} {solution : Solution (SortedSet Definition)}
  {block : Block}

/-- A solution lists a definition at the start of a block exactly if it reaches the block. -/
theorem exists_before (solved : (analysis graph).solve graph visits = .ok solution)
    (nodup : graph.names.Nodup) (member : block ∈ graph.blocks) :
    ∃ before, solution.before? block.name = some before ∧ ∀ var,
      (⟨var, .param⟩ ∈ before ↔ graph.ParamReaches var block) ∧
      ∀ name place, ⟨var, .instr name place⟩ ∈ before ↔
        ∃ source instr, source.name = name ∧ graph.WriteReaches var source place instr block := by
  obtain ⟨before, _, ⟨isBefore, _⟩, tells⟩ := Analysis.exists_states solved nodup member
  refine ⟨before, isBefore, fun var => ⟨?_, fun name place => ?_⟩⟩
  · rw [(tells (tracks graph ⟨var, .param⟩)).1]
    refine (Analysis.finds_writes_iff rfl fun source _ place =>
      Site.param = .instr source.name place).trans ?_
    rw [FlowGraph.ParamReaches]
    simp [analysis]
  · rw [(tells (tracks graph ⟨var, .instr name place⟩)).1]
    refine (Analysis.finds_writes_iff rfl fun source _ other =>
      Site.instr name place = .instr source.name other).trans ?_
    have noParam : (⟨var, .instr name place⟩ : Definition) ∉ (analysis graph).boundary := by
      simp [analysis]
    simp only [noParam, false_and, false_or, Site.instr.injEq]
    constructor
    · rintro ⟨source, _, instr, ⟨rfl, rfl⟩, reaches⟩
      exact ⟨source, instr, rfl, reaches⟩
    · rintro ⟨source, instr, rfl, reaches⟩
      exact ⟨source, place, instr, ⟨rfl, rfl⟩, reaches⟩

end ReachingDefinitions

namespace DefinedVariables

/-- That a variable is defined is a fact, which every block keeps. -/
theorem tracks (graph : FlowGraph) (var : String) :
    (analysis graph).Tracks (var ∈ ·) (fun source => var ∈ source.defs) (fun _ => True)
      (fun _ _ => False) := by
  refine ⟨SortedSet.not_mem_empty _, fun states => ?_, fun block defined => ?_,
    fun source target defined => ?_⟩
  · exact SortedSet.mem_unionAll.trans (or_iff_right (SortedSet.not_mem_empty var))
  · exact SortedSet.mem_insertAll.trans (or_congr_right (and_iff_right trivial).symm)
  · exact (or_iff_right id).symm

/-- A variable is found defined at a block that some parameter of its name is led to, or some write. -/
theorem finds_iff {graph : FlowGraph} {var : String} {block : Block} :
    (analysis graph).Finds graph (var ∈ ·) (fun source => var ∈ source.defs) (fun _ => True)
        (fun _ _ => False) block ↔
      (var ∈ graph.paramNames ∧ ∃ origin, graph.Source origin ∧ Reaches graph.Links origin block) ∨
      ∃ source first, var ∈ source.defs ∧ graph.Links source first ∧
        Reaches graph.Links first block := by
  refine arrives_iff_path.trans (or_congr ⟨?_, ?_⟩ ⟨?_, ?_⟩)
  · rintro ⟨origin, earlier, ⟨member, unfed, held⟩, path, -⟩
    exact ⟨SortedSet.mem_ofList.1 held, origin, ⟨member, unfed⟩, _, path⟩
  · rintro ⟨isParam, origin, ⟨member, unfed⟩, nodes, path⟩
    obtain ⟨earlier, rfl⟩ := path.exists_eq_cons
    exact ⟨origin, earlier, ⟨member, unfed, SortedSet.mem_ofList.2 isParam⟩, path,
      fun _ _ => trivial⟩
  · rintro ⟨source, first, earlier, links, isSent, path, -⟩
    exact ⟨source, first, isSent.resolve_left id, links, _, path⟩
  · rintro ⟨source, first, writes, links, nodes, path⟩
    obtain ⟨earlier, rfl⟩ := path.exists_eq_cons
    exact ⟨source, first, earlier, links, .inr writes, path, fun _ _ => trivial⟩

/-- A solution lists a variable at the start of a block exactly if some path leads there from a start,
for a parameter, or from a write of it. -/
theorem exists_before {graph : FlowGraph} {visits : Nat} {solution : Solution (SortedSet String)}
    {block : Block} (solved : (analysis graph).solve graph visits = .ok solution)
    (nodup : graph.names.Nodup) (member : block ∈ graph.blocks) :
    ∃ before, solution.before? block.name = some before ∧ ∀ var, var ∈ before ↔
      (var ∈ graph.paramNames ∧ ∃ origin, graph.Source origin ∧ Reaches graph.Links origin block) ∨
      ∃ source first, var ∈ source.defs ∧ graph.Links source first ∧
        Reaches graph.Links first block := by
  obtain ⟨before, _, ⟨isBefore, _⟩, tells⟩ := Analysis.exists_states solved nodup member
  exact ⟨before, isBefore, fun var => (tells (tracks graph var)).1.trans finds_iff⟩

end DefinedVariables

namespace ConstantPropagation

/-- What an instruction that writes a variable lets one know about it. -/
def valueOf (instr : Instr) : ConstValue :=
  match instr.action with
  | .const _ _ value => .known value
  | _ => .unknown

/-- A state knows something of a kind about a variable. -/
def Knows (var : String) (kind : ConstValue → Prop) (state : State) : Prop :=
  ∃ value, state.get? var = some value ∧ kind value

variable {var : String} {kind : ConstValue → Prop}

/-- An instruction that writes a variable lets one know its value, and others change nothing. -/
theorem knows_step_iff {state : State} {instr : Instr} :
    Knows var kind (step state instr) ↔
      (instr.dest? = some var ∧ kind (valueOf instr)) ∨
        (instr.dest? ≠ some var ∧ Knows var kind state) := by
  have written : ∀ dest value, Knows var kind (state.insert dest value) ↔
      (some dest = some var ∧ kind value) ∨ (some dest ≠ some var ∧ Knows var kind state) := by
    intro dest value
    unfold Knows
    rw [SortedMap.get?_insert_eq]
    by_cases same : var = dest
    · simp [same]
    · simp [same, Ne.symm same]
  unfold step valueOf Instr.dest?
  cases instr.action with
  | const dest ty value => exact written dest (.known value)
  | compute op dest ty operands => exact written dest .unknown
  | _ => simp [Action.dest?]

/-- One more value of a variable adds what is known of it. -/
theorem knows_alter_iff (joins : ∀ left right, kind (left.join right) ↔ kind left ∨ kind right)
    {state : State} {other : String} {value : ConstValue} :
    Knows var kind (state.alter other fun known =>
        match known with
        | some known => known.join value
        | none => value) ↔
      Knows var kind state ∨ (other = var ∧ kind value) := by
  unfold Knows
  rw [SortedMap.get?_alter]
  by_cases same : var = other
  · subst same
    cases state.get? var with
    | none => simp
    | some known => simp [joins]
  · simp [same, Ne.symm same]

/-- A merge of two states knows something about a variable if either of them does. -/
theorem knows_mergeTwo_iff (joins : ∀ left right, kind (left.join right) ↔ kind left ∨ kind right)
    {left right : State} :
    Knows var kind (mergeTwo left right) ↔ Knows var kind left ∨ Knows var kind right := by
  have added : ∀ (entries : List (String × ConstValue)) (merged : State),
      Knows var kind (entries.foldl (fun merged entry => merged.alter entry.1 fun known =>
        match known with
        | some known => known.join entry.2
        | none => entry.2) merged) ↔
      Knows var kind merged ∨ ∃ entry ∈ entries, entry.1 = var ∧ kind entry.2 := by
    intro entries
    induction entries with
    | nil => simp
    | cons entry rest restIH =>
      intro merged
      rw [List.foldl_cons, restIH, knows_alter_iff joins, List.exists_mem_cons_iff, or_assoc]
  have listed : Knows var kind right ↔ ∃ entry ∈ right.toList, entry.1 = var ∧ kind entry.2 := by
    simp only [Knows, SortedMap.get?_eq_some_iff, Prod.exists]
    constructor
    · rintro ⟨value, member, isKind⟩
      exact ⟨var, value, member, rfl, isKind⟩
    · rintro ⟨_, value, member, rfl, isKind⟩
      exact ⟨value, member, isKind⟩
  rw [listed]
  exact added right.toList left

/-- Merged states know something about a variable if one of them does. -/
theorem knows_mergeAll_iff (joins : ∀ left right, kind (left.join right) ↔ kind left ∨ kind right)
    {states : List State} {start : State} :
    Knows var kind (states.foldl mergeTwo start) ↔
      Knows var kind start ∨ ∃ state ∈ states, Knows var kind state := by
  induction states generalizing start with
  | nil => simp
  | cons state rest restIH =>
    rw [List.foldl_cons, restIH, knows_mergeTwo_iff joins, List.exists_mem_cons_iff, or_assoc]

/-- To know something about a variable is a fact that the last write of a block decides, if what is
joined is of the kind in question when either part is. -/
theorem tracks (graph : FlowGraph)
    (joins : ∀ left right, kind (left.join right) ↔ kind left ∨ kind right) :
    (analysis graph).Tracks (Knows var kind)
      (fun source => ∃ place instr, WritesLast source.instrs var place instr ∧ kind (valueOf instr))
      (fun source => var ∉ source.defs) (fun _ _ => False) := by
  refine ⟨nofun, fun states => ?_, fun block state => ?_, fun source target state => ?_⟩
  · exact (knows_mergeAll_iff joins).trans (or_iff_right nofun)
  · have decided := @foldl_writes_iff _ (Knows var kind) var (fun instr _ => kind (valueOf instr))
      (fun state instr _ => step state instr) (fun _ _ _ => knows_step_iff) block.instrs 0 state
    have unnumbered : (block.instrs.zipIdx 0).foldl (fun state entry => step state entry.1) state =
        block.instrs.foldl step state := by
      rw [← List.foldl_map, List.zipIdx_map_fst]
    rw [unnumbered, ← Block.not_mem_defs_iff] at decided
    exact decided
  · exact (or_iff_right id).symm

/-- The parameters have values that are not known. -/
theorem knows_boundary_iff {graph : FlowGraph} :
    Knows var kind (analysis graph).boundary ↔ var ∈ graph.paramNames ∧ kind .unknown := by
  have isUnknown : ∀ value, (analysis graph).boundary.get? var = some value → value = .unknown := by
    intro value found
    rw [analysis, SortedMap.ofList, SortedMap.get?_insertAll, SortedMap.get?_empty,
      Option.or_none] at found
    obtain ⟨entry, isEntry, rfl⟩ := Option.map_eq_some_iff.1 found
    obtain ⟨name, _, rfl⟩ :=
      List.mem_map.1 (List.mem_reverse.1 (List.mem_of_find?_eq_some isEntry))
    rfl
  have isKey : var ∈ (analysis graph).boundary.keys ↔ var ∈ graph.paramNames := by
    rw [analysis, SortedMap.mem_keys_ofList, List.map_map]
    exact iff_of_eq (congrArg (var ∈ ·) (List.map_id _))
  rw [← isKey, SortedMap.mem_keys]
  constructor
  · rintro ⟨value, found, isKind⟩
    exact ⟨⟨value, found⟩, isUnknown value found ▸ isKind⟩
  · rintro ⟨⟨value, found⟩, isKind⟩
    exact ⟨value, found, (isUnknown value found).symm ▸ isKind⟩

/-- What is known of a variable at the start of a block tells what reaches it: something of a kind is
known exactly if a parameter reaches, whose values are unknown, or a write of a value of that kind. -/
theorem finds_iff {graph : FlowGraph} {block : Block} :
    (analysis graph).Finds graph (Knows var kind)
        (fun source => ∃ place instr, WritesLast source.instrs var place instr ∧
          kind (valueOf instr))
        (fun source => var ∉ source.defs) (fun _ _ => False) block ↔
      (kind .unknown ∧ graph.ParamReaches var block) ∨
      ∃ source place instr, kind (valueOf instr) ∧
        graph.WriteReaches var source place instr block := by
  refine (Analysis.finds_writes_iff rfl fun _ instr _ => kind (valueOf instr)).trans
    (or_congr_left ?_)
  rw [knows_boundary_iff, FlowGraph.ParamReaches]
  tauto

/-- An instruction that writes a variable gives it a known value if it sets it to the constant. -/
theorem valueOf_eq_known_iff {instr : Instr} (writes : instr.dest? = some var) {value : Literal} :
    valueOf instr = .known value ↔ ∃ ty, instr.action = .const var ty value := by
  unfold Instr.dest? at writes
  unfold valueOf
  cases isAction : instr.action <;> rw [isAction] at writes <;> simp_all [Action.dest?]

/-- What two joined values are known for both are known for. -/
theorem join_ne_known_iff (value : Literal) (left right : ConstValue) :
    left.join right ≠ .known value ↔ left ≠ .known value ∨ right ≠ .known value := by
  unfold ConstValue.join
  by_cases same : left = right
  · subst same
    simp
  · rw [if_neg same]
    refine iff_of_true nofun ?_
    by_contra both
    rw [not_or, not_not, not_not] at both
    exact same (both.1.trans both.2.symm)

/-- At the start of a block a solution knows nothing of a variable of which nothing reaches the block,
knows the constant that all that reaches sets it to, and otherwise knows that it is unknown. -/
theorem exists_before {graph : FlowGraph} {visits : Nat} {solution : Solution State} {block : Block}
    (solved : (analysis graph).solve graph visits = .ok solution)
    (nodup : graph.names.Nodup) (member : block ∈ graph.blocks) :
    ∃ before, solution.before? block.name = some before ∧ ∀ var,
      (before.get? var = none ↔ ¬graph.SomeReaches var block) ∧
      (∀ value, before.get? var = some (.known value) ↔
        graph.SomeReaches var block ∧ graph.OnlyReaches var value block) ∧
      (before.get? var = some .unknown ↔
        graph.SomeReaches var block ∧ ∀ value, ¬graph.OnlyReaches var value block) := by
  obtain ⟨before, _, ⟨isBefore, _⟩, tells⟩ := Analysis.exists_states solved nodup member
  refine ⟨before, isBefore, fun var => ?_⟩
  -- Anything is known exactly if something reaches the block.
  have anything : (∃ value, before.get? var = some value) ↔ graph.SomeReaches var block := by
    have found := (tells (@tracks var (fun _ => True) graph fun _ _ => (or_self_iff).symm)).1
    rw [finds_iff] at found
    simpa [Knows, FlowGraph.SomeReaches] using found
  -- Anything but one constant is known exactly if something else reaches the block.
  have others : ∀ value, (∃ other, before.get? var = some other ∧ other ≠ .known value) ↔
      ¬graph.OnlyReaches var value block := by
    intro value
    refine (tells (tracks graph (join_ne_known_iff value))).1.trans (finds_iff.trans ?_)
    rw [FlowGraph.OnlyReaches, not_and_or, not_not]
    refine or_congr (and_iff_right nofun) ?_
    push Not
    refine exists_congr fun source => exists_congr fun place => exists_congr fun instr => ?_
    constructor
    · rintro ⟨isOther, reaches⟩
      exact ⟨reaches, not_exists.1 (mt (valueOf_eq_known_iff reaches.writes).2 isOther)⟩
    · rintro ⟨reaches, isOther⟩
      exact ⟨mt (valueOf_eq_known_iff reaches.writes).1 (not_exists.2 isOther), reaches⟩
  have only := fun value => (not_iff_comm.1 (others value).symm).symm
  simp only [← anything, only]
  cases before.get? var with
  | none => simp
  | some known => cases known <;> simp [eq_comm]

end ConstantPropagation

/-- In the flow graph of a function the forward analyses find at the start of a block what paths bring
there. Reaching definitions are the parameters and writes whose values reach the block. Defined
variables are the parameters if a path leads there from a block that nothing leads to, and what is
written by a block from which a path of at least one edge leads there. Constant propagation knows
nothing of a variable of which no value reaches the block, knows it for a constant if every value that
does is the constant, and otherwise knows that it is unknown. -/
theorem Analysis.solve_forward_iff {function : Func} {graph : FlowGraph} {log : Log}
    (built : FlowGraph.build function = .ok (graph, log)) {block : Block}
    (member : block ∈ graph.blocks) :
    (∀ visits solution, (ReachingDefinitions.analysis graph).solve graph visits = .ok solution →
      ∃ before, solution.before? block.name = some before ∧ ∀ var,
        (⟨var, .param⟩ ∈ before ↔ graph.ParamReaches var block) ∧
        ∀ name place, ⟨var, .instr name place⟩ ∈ before ↔
          ∃ source instr, source.name = name ∧ graph.WriteReaches var source place instr block) ∧
    (∀ visits solution, (DefinedVariables.analysis graph).solve graph visits = .ok solution →
      ∃ before, solution.before? block.name = some before ∧ ∀ var, var ∈ before ↔
        (var ∈ graph.paramNames ∧ ∃ origin, graph.Source origin ∧ Reaches graph.Links origin block) ∨
        ∃ source first, var ∈ source.defs ∧ graph.Links source first ∧
          Reaches graph.Links first block) ∧
    (∀ visits solution, (ConstantPropagation.analysis graph).solve graph visits = .ok solution →
      ∃ before, solution.before? block.name = some before ∧ ∀ var,
        (before.get? var = none ↔ ¬graph.SomeReaches var block) ∧
        (∀ value, before.get? var = some (.known value) ↔
          graph.SomeReaches var block ∧ graph.OnlyReaches var value block) ∧
        (before.get? var = some .unknown ↔
          graph.SomeReaches var block ∧ ∀ value, ¬graph.OnlyReaches var value block)) := by
  have nodup := FlowGraph.nodup_names_of_build built
  exact ⟨fun _ _ solved => ReachingDefinitions.exists_before solved nodup member,
    fun _ _ solved => DefinedVariables.exists_before solved nodup member,
    fun _ _ solved => ConstantPropagation.exists_before solved nodup member⟩

/-- A function that sets a variable to one constant on two ways. -/
def setsTwice : Func where
  name := "twice"
  params := [⟨"again", .bool⟩]
  returnType := none
  instrs := [.label "start", .const "k" .int (.int 1), .br "again" "left" "right", .label "left",
    .const "k" .int (.int 1), .jmp "join", .label "right", .const "x" .int (.int 2), .jmp "join",
    .label "join", .effect .print ["k"] [], .ret none]
  pos := none

/-- Where the two ways meet, the analyses find both writes of the constant, all three variables, and
the constant; and both writes reach that place, a way leads there from the write of the other variable,
and only the constant reaches it. -/
theorem Analysis.solve_forward_iff_setsTwice :
    ∃ graph log block reaching defined constant definitions written constants,
      FlowGraph.build setsTwice = .ok (graph, log) ∧ graph.find? "join" = some block ∧
      ((ReachingDefinitions.analysis graph).solve graph 100 = .ok reaching ∧
        reaching.before? "join" = some definitions ∧
        definitions.toList = [⟨"again", .param⟩, ⟨"k", .instr "left" 0⟩, ⟨"k", .instr "start" 0⟩,
          ⟨"x", .instr "right" 0⟩] ∧
        (∃ source instr, source.name = "left" ∧ graph.WriteReaches "k" source 0 instr block) ∧
        ∃ source instr, source.name = "start" ∧ graph.WriteReaches "k" source 0 instr block) ∧
      ((DefinedVariables.analysis graph).solve graph 100 = .ok defined ∧
        defined.before? "join" = some written ∧ written.toList = ["again", "k", "x"] ∧
        ∃ source first, "x" ∈ source.defs ∧ graph.Links source first ∧
          Reaches graph.Links first block) ∧
      ((ConstantPropagation.analysis graph).solve graph 100 = .ok constant ∧
        constant.before? "join" = some constants ∧
        constants.toList = [("again", .unknown), ("k", .known (.int 1)), ("x", .known (.int 2))] ∧
        graph.SomeReaches "k" block ∧ graph.OnlyReaches "k" (.int 1) block) := by
  obtain ⟨graph, log, block, reaching, defined, constant, definitions, written, constants, built, found,
      solvedReaching, solvedDefined, solvedConstant, isReaching, isDefined, isConstant, areDefinitions,
      areWritten, areConstants, noParam⟩ :
      ∃ graph log block reaching defined constant definitions written constants,
        FlowGraph.build setsTwice = .ok (graph, log) ∧ graph.find? "join" = some block ∧
        (ReachingDefinitions.analysis graph).solve graph 100 = .ok reaching ∧
        (DefinedVariables.analysis graph).solve graph 100 = .ok defined ∧
        (ConstantPropagation.analysis graph).solve graph 100 = .ok constant ∧
        reaching.before? "join" = some definitions ∧ defined.before? "join" = some written ∧
        constant.before? "join" = some constants ∧
        definitions.toList = [⟨"again", .param⟩, ⟨"k", .instr "left" 0⟩, ⟨"k", .instr "start" 0⟩,
          ⟨"x", .instr "right" 0⟩] ∧
        written.toList = ["again", "k", "x"] ∧
        constants.toList = [("again", .unknown), ("k", .known (.int 1)), ("x", .known (.int 2))] ∧
        "x" ∉ graph.paramNames :=
    ⟨_, _, _, _, _, _, _, _, _, rfl, rfl, rfl, rfl, rfl, rfl, rfl, rfl, rfl, rfl, rfl, by decide⟩
  obtain ⟨member, named⟩ :=
    (FlowGraph.find?_eq_some_iff (FlowGraph.nodup_names_of_build built)).1 found
  obtain ⟨reaches, leads, known⟩ := solve_forward_iff built member
  rw [named] at reaches leads known
  refine ⟨graph, log, block, reaching, defined, constant, definitions, written, constants, built, found,
    ⟨solvedReaching, isReaching, areDefinitions, ?_⟩, ⟨solvedDefined, isDefined, areWritten, ?_⟩,
    solvedConstant, isConstant, areConstants, ?_⟩
  · obtain ⟨_, same, tells⟩ := reaches 100 reaching solvedReaching
    obtain rfl := Option.some.inj (isReaching.symm.trans same)
    refine ⟨((tells "k").2 "left" 0).1 ?_, ((tells "k").2 "start" 0).1 ?_⟩ <;>
      simp [SortedSet.mem_def, areDefinitions]
  · obtain ⟨_, same, tells⟩ := leads 100 defined solvedDefined
    obtain rfl := Option.some.inj (isDefined.symm.trans same)
    refine ((tells "x").1 ?_).resolve_left fun isParam => noParam isParam.1
    simp [SortedSet.mem_def, areWritten]
  · obtain ⟨_, same, tells⟩ := known 100 constant solvedConstant
    obtain rfl := Option.some.inj (isConstant.symm.trans same)
    refine ((tells "k").2.1 (.int 1)).1 ?_
    rw [SortedMap.get?, areConstants]
    rfl

end Midend
