import Mathlib.Data.Finset.Card
import Midend.Proofs.Dataflow.Ascent
import Midend.Proofs.Dataflow.Definitions
import Midend.Proofs.Dataflow.Liveness
import Midend.Proofs.Ssa.Form

/-! # Convergence of the analyses

The states of the four analyses climb no higher than the number of what they may hold: operands for
liveness, parameters and variables written for defined variables, places that give values for reaching
definitions, and twice the parameters and variables written for constants, each of which is first
absent, then known, then unknown. Twice that number of visits for each block, and one more, are
always enough (`Analysis.solve_converges`). -/

namespace Midend

/-! ## Sizes of sets -/

namespace SortedSet

variable {α : Type} [Ord α] [Std.LawfulEqOrd α] [Std.TransOrd α]

/-- A larger set has at least as many members, and is the same one if it has no more. -/
theorem size_le_of_subset {low high : SortedSet α} (subset : ∀ member ∈ low, member ∈ high) :
    low.size ≤ high.size ∧ (high.size ≤ low.size → low = high) := by
  have subperm : low.toList.Subperm high.toList := low.nodup_toList.subperm subset
  refine ⟨subperm.length_le, fun few => SortedSet.ext fun member => ?_⟩
  exact (subperm.perm_of_length_le few).mem_iff

omit [Std.TransOrd α] in
/-- A set of elements of a list has no more members than the list has elements. -/
theorem size_le_card [DecidableEq α] {set : SortedSet α} {list : List α}
    (subset : ∀ member ∈ set, member ∈ list) : set.size ≤ list.toFinset.card := by
  rw [size, ← List.toFinset_card_of_nodup set.nodup_toList]
  exact Finset.card_le_card fun member inside =>
    List.mem_toFinset.2 (subset member (List.mem_toFinset.1 inside))

end SortedSet

/-- An analysis whose states are sets climbs no higher than the number of the members that the
boundary, blocks and edges may give. -/
theorem Analysis.climbs_of_sets {α : Type} [Ord α] [Std.LawfulEqOrd α] [Std.TransOrd α]
    [DecidableEq α] {analysis : Analysis (SortedSet α)} {blocks : List Block} (list : List α)
    (tracks : ∀ member, ∃ gives keeps adds, analysis.Tracks (member ∈ ·) gives keeps adds ∧
      (member ∈ analysis.boundary → member ∈ list) ∧
      (∀ block ∈ blocks, gives block → member ∈ list) ∧
      ∀ source ∈ blocks, ∀ target ∈ blocks, adds source target → member ∈ list) :
    analysis.Climbs blocks (fun member set => member ∈ set) (· ∈ list) SortedSet.size
      list.toFinset.card := by
  refine ⟨tracks, fun low high subset apart => ?_, fun set => SortedSet.size_le_card⟩
  obtain ⟨_, same⟩ := SortedSet.size_le_of_subset subset
  exact Nat.lt_of_not_le fun few => apart (same few)

/-! ## The analyses of sets -/

namespace FlowGraph

/-- The variables that instructions read. -/
def operands (graph : FlowGraph) : List String := graph.instrs.flatMap Instr.args

/-- The parameters and the variables that instructions write. -/
def vars (graph : FlowGraph) : List String := graph.paramNames ++ graph.dests

/-- The places where parameters and instructions give variables their values. -/
def definitions (graph : FlowGraph) : List Definition :=
  graph.paramNames.map (⟨·, .param⟩) ++ graph.blocks.flatMap fun block =>
    block.instrs.zipIdx.filterMap fun (instr, place) =>
      instr.dest?.map (⟨·, .instr block.name place⟩)

variable {graph : FlowGraph} {block : Block}

/-- What an instruction of a block reads is an operand. -/
theorem mem_operands (member : block ∈ graph.blocks) {instr : Instr} (inside : instr ∈ block.instrs)
    {var : String} (isArg : var ∈ instr.args) : var ∈ graph.operands :=
  List.mem_flatMap.2 ⟨instr, List.mem_flatMap.2 ⟨block, member, inside⟩, isArg⟩

/-- What a block writes is a variable. -/
theorem mem_vars_of_defs (member : block ∈ graph.blocks) {var : String} (isWritten : var ∈ block.defs) :
    var ∈ graph.vars := List.mem_append_right _ (mem_dests.2 ⟨block, member, isWritten⟩)

end FlowGraph

/-- Liveness climbs no higher than the number of operands. -/
theorem Liveness.climbs (graph : FlowGraph) : Liveness.analysis.Climbs graph.blocks
    (fun var live => var ∈ live) (· ∈ graph.operands) SortedSet.size graph.operands.toFinset.card := by
  refine Analysis.climbs_of_sets _ fun var => ⟨_, _, _, Liveness.tracks var, ?_, ?_, ?_⟩
  · exact fun live => absurd live (SortedSet.not_mem_empty var)
  · rintro block member ⟨front, instr, rest, split, _, isArg, _⟩
    exact FlowGraph.mem_operands member (split ▸ List.mem_append_right _ (List.mem_cons_self ..)) isArg
  · rintro source member _ _ ⟨phi, isPhi, isIncoming⟩
    exact FlowGraph.mem_operands member (Block.mem_of_mem_phis isPhi) (List.of_mem_zip isIncoming).2

/-- Defined variables climb no higher than the number of parameters and variables written. -/
theorem DefinedVariables.climbs (graph : FlowGraph) : (DefinedVariables.analysis graph).Climbs
    graph.blocks (fun var defined => var ∈ defined) (· ∈ graph.vars) SortedSet.size
      graph.vars.toFinset.card := by
  refine Analysis.climbs_of_sets _ fun var => ⟨_, _, _, DefinedVariables.tracks graph var, ?_, ?_, nofun⟩
  · exact fun isParam => List.mem_append_left _ (SortedSet.mem_ofList.1 isParam)
  · exact fun block member isWritten => FlowGraph.mem_vars_of_defs member isWritten

/-- Reaching definitions climb no higher than the number of places that give values. -/
theorem ReachingDefinitions.climbs (graph : FlowGraph) : (ReachingDefinitions.analysis graph).Climbs
    graph.blocks (fun definition reaching => definition ∈ reaching) (· ∈ graph.definitions)
      SortedSet.size graph.definitions.toFinset.card := by
  refine Analysis.climbs_of_sets _ fun definition =>
    ⟨_, _, _, ReachingDefinitions.tracks graph definition, ?_, ?_, nofun⟩
  · exact fun isParam => List.mem_append_left _ (SortedSet.mem_ofList.1 isParam)
  · rintro block member ⟨place, instr, writes, isSite⟩
    obtain ⟨found, isWritten⟩ := writes.getElem?
    refine List.mem_append_right _ (List.mem_flatMap.2 ⟨block, member, List.mem_filterMap.2
      ⟨(instr, place), List.mem_zipIdx_iff_getElem?.2 found, ?_⟩⟩)
    change Option.map _ instr.dest? = _
    rw [isWritten, Option.map_some, ← isSite]

/-! ## Constants -/

namespace ConstantPropagation

/-- The values that tell states apart: any value of a variable, or any but one constant. -/
def Differs : Option Literal → ConstValue → Prop
  | none, _ => True
  | some value, known => known ≠ .known value

/-- Two joined values differ from a constant if either does. -/
theorem differs_join_iff (other : Option Literal) (left right : ConstValue) :
    Differs other (left.join right) ↔ Differs other left ∨ Differs other right := by
  cases other with
  | none => exact (or_self_iff).symm
  | some value => exact join_ne_known_iff value left right

/-- The variables of a state. -/
abbrev present (state : State) : SortedSet String := state.keySet

/-- The variables of a state whose values are unknown. -/
def uncertain (state : State) : SortedSet String :=
  (state.filter fun _ value => value = .unknown).keySet

/-- A variable is present if it has a value. -/
theorem mem_present {state : State} {var : String} :
    var ∈ present state ↔ ∃ value, state.get? var = some value := SortedMap.mem_keys

/-- A variable is uncertain if its value is unknown. -/
theorem mem_uncertain {state : State} {var : String} :
    var ∈ uncertain state ↔ state.get? var = some .unknown := by
  rw [SortedMap.get?_eq_some_iff]
  change var ∈ (state.toList.filter fun entry => entry.2 = .unknown).map Prod.fst ↔ _
  simp only [List.mem_map, List.mem_filter, decide_eq_true_eq, Prod.exists]
  constructor
  · rintro ⟨_, _, ⟨member, rfl⟩, rfl⟩
    exact member
  · exact fun member => ⟨var, .unknown, ⟨member, rfl⟩, rfl⟩

/-- A variable counts once when it is present, and once more when it is uncertain. -/
def rank (state : State) : Nat := (present state).size + (uncertain state).size

/-- A state that knows more different things has a higher rank. -/
theorem rank_lt {low high : State}
    (gains : ∀ var other, Knows var (Differs other) low → Knows var (Differs other) high)
    (apart : low ≠ high) : rank low < rank high := by
  have presents : ∀ var ∈ present low, var ∈ present high := by
    intro var member
    obtain ⟨value, found⟩ := mem_present.1 member
    obtain ⟨other, isOther, _⟩ := gains var none ⟨value, found, trivial⟩
    exact mem_present.2 ⟨other, isOther⟩
  have stays : ∀ var value, low.get? var = some value →
      high.get? var = some value ∨ high.get? var = some .unknown := by
    intro var value found
    obtain ⟨other, isOther, _⟩ := gains var none ⟨value, found, trivial⟩
    cases other with
    | unknown => exact .inr isOther
    | known constant =>
      -- A value that differs from this constant would still do so.
      by_cases same : value = .known constant
      · exact .inl (same ▸ isOther)
      · obtain ⟨_, found', differs⟩ := gains var (some constant) ⟨value, found, same⟩
        exact absurd (Option.some.inj (found'.symm.trans isOther)) differs
  have uncertains : ∀ var ∈ uncertain low, var ∈ uncertain high := fun var member =>
    mem_uncertain.2 ((stays var .unknown (mem_uncertain.1 member)).elim id id)
  obtain ⟨morePresent, samePresent⟩ := SortedSet.size_le_of_subset presents
  obtain ⟨moreUncertain, sameUncertain⟩ := SortedSet.size_le_of_subset uncertains
  -- If the rank were no higher, both sets would stay, and with them each value.
  refine Nat.lt_of_not_le fun few => apart (SortedMap.ext fun var => ?_)
  unfold rank at few
  have samePresent := samePresent (by omega)
  have sameUncertain := sameUncertain (by omega)
  cases found : low.get? var with
  | none =>
    have absent : var ∉ present high := by
      rw [← samePresent, mem_present, found]
      exact nofun
    rw [mem_present] at absent
    exact (Option.eq_none_iff_forall_ne_some.2 fun value isValue => absent ⟨value, isValue⟩).symm
  | some value =>
    rcases stays var value found with same | isUnknown
    · exact same.symm
    · have isUncertain : var ∈ uncertain low := sameUncertain ▸ mem_uncertain.2 isUnknown
      rw [isUnknown, ← found]
      exact mem_uncertain.1 isUncertain

/-- Constants climb no higher than twice the number of parameters and variables written. -/
theorem climbs (graph : FlowGraph) : (analysis graph).Climbs graph.blocks
    (fun (fact : String × Option Literal) state => Knows fact.1 (Differs fact.2) state)
    (·.1 ∈ graph.vars) rank (2 * graph.vars.toFinset.card) := by
  refine ⟨fun ⟨var, other⟩ => ⟨_, _, _, tracks graph (differs_join_iff other), ?_, ?_, nofun⟩,
    fun low high gains apart => rank_lt (fun var other => gains (var, other)) apart,
    fun state known => ?_⟩
  · exact fun isKnown => List.mem_append_left _ (knows_boundary_iff.1 isKnown).1
  · rintro block member ⟨place, instr, writes, _⟩
    obtain ⟨found, isWritten⟩ := writes.getElem?
    exact FlowGraph.mem_vars_of_defs member
      (List.mem_filterMap.2 ⟨instr, List.mem_of_getElem? found, isWritten⟩)
  · have inVars : ∀ var value, state.get? var = some value → var ∈ graph.vars :=
      fun var value found => known (var, none) ⟨value, found, trivial⟩
    have presents : (present state).size ≤ graph.vars.toFinset.card :=
      SortedSet.size_le_card fun var member => by
        obtain ⟨value, found⟩ := mem_present.1 member
        exact inVars var value found
    have uncertains : (uncertain state).size ≤ graph.vars.toFinset.card :=
      SortedSet.size_le_card fun var member => inVars var _ (mem_uncertain.1 member)
    unfold rank
    omega

end ConstantPropagation

/-! ## Edges -/

namespace FlowGraph

/-- Where blocks lead to two others at most, there are at most twice as many edges as blocks. -/
theorem length_edges_le {graph : FlowGraph}
    (few : ∀ block ∈ graph.blocks, block.successors.length ≤ 2) :
    graph.digraph.edges.length ≤ 2 * graph.blocks.length := by
  refine (List.length_filter_le _ _).trans ?_
  rw [indexEdges, List.length_flatMap]
  refine (List.sum_le_card_nsmul _ 2 fun length member => ?_).trans ?_
  · obtain ⟨⟨block, place⟩, inside, rfl⟩ := List.mem_map.1 member
    exact (List.length_filterMap_le _ _).trans (few block (List.fst_mem_of_mem_zipIdx inside))
  · rw [List.length_map, List.length_zipIdx, Nat.nsmul_eq_mul, Nat.mul_comm]

/-- The blocks of the flow graph of a function lead to two others at most. -/
theorem length_successors_le {function : Func} {graph : FlowGraph} {log : Log}
    (built : build function = .ok (graph, log)) {block : Block} (member : block ∈ graph.blocks) :
    block.successors.length ≤ 2 := by
  have isBuilt := builtFrom_of_build built
  rw [Block.successors]
  cases isEnd : block.terminator? with
  | none => exact Nat.zero_le _
  | some terminator =>
    have inside : terminator ∈ block.instrs :=
      List.mem_of_getLast? (Option.filter_eq_some_iff.1 isEnd).1
    have few : terminator.labels.length ≤ 2 := by
      rcases isBuilt.mem_instrs block member terminator inside with inFunction | ⟨_, action⟩ | action
      · rcases Instr.terminator_cases (isBuilt.checked.instrs terminator inFunction)
          (Option.filter_eq_some_iff.1 isEnd).2 with ⟨_, _, action, _, labels⟩ |
            ⟨_, _, _, _, action, _, labels⟩ | ⟨_, action, labels⟩
        all_goals
          rw [Instr.labels, action]
          exact (congrArg List.length labels).trans_le (by simp)
      · rw [Instr.labels, action]
        exact Nat.le_succ 1
      · rw [Instr.labels, action]
        exact Nat.zero_le 2
    have fewer := ((nodup_eraseDups terminator.labels).subperm
      fun _ => List.mem_eraseDups.1).length_le.trans few
    dsimp only
    split
    · exact fewer
    · exact fewer
    · exact Nat.zero_le 2

end FlowGraph

/-! ## Results -/

/-- On the flow graph of a function no analysis gives up that may visit each block once, and twice
more for each thing that a state may hold: for each operand in liveness, for each parameter and
variable written in defined variables, for each place that gives a value in reaching definitions, and
for each parameter and variable written two times in constant propagation. -/
theorem Analysis.solve_converges {function : Func} {graph : FlowGraph} {log : Log}
    (built : FlowGraph.build function = .ok (graph, log)) (visits : Nat) :
    (1 + 2 * graph.operands.toFinset.card ≤ visits →
      ∃ solution, Liveness.analysis.solve graph visits = .ok solution) ∧
    (1 + 2 * graph.vars.toFinset.card ≤ visits →
      ∃ solution, (DefinedVariables.analysis graph).solve graph visits = .ok solution) ∧
    (1 + 2 * graph.definitions.toFinset.card ≤ visits →
      ∃ solution, (ReachingDefinitions.analysis graph).solve graph visits = .ok solution) ∧
    (1 + 2 * (2 * graph.vars.toFinset.card) ≤ visits →
      ∃ solution, (ConstantPropagation.analysis graph).solve graph visits = .ok solution) := by
  have nonempty : graph.blocks ≠ [] := mt List.map_eq_nil_iff.2 (FlowGraph.names_of_build built).2
  have few := FlowGraph.length_edges_le fun _ => FlowGraph.length_successors_le built
  exact ⟨(Liveness.climbs graph).exists_solution nonempty few,
    (DefinedVariables.climbs graph).exists_solution nonempty few,
    (ReachingDefinitions.climbs graph).exists_solution nonempty few,
    (ConstantPropagation.climbs graph).exists_solution nonempty few⟩

/-- A loop that copies two variables to each other. -/
def copiesAround : Func where
  name := "around"
  params := [⟨"go", .bool⟩]
  returnType := none
  instrs := [.const "x" .int (.int 1), .label "loop", .copy "y" .int "x", .copy "x" .int "y",
    .br "go" "loop" "end", .label "end", .ret none]
  pos := none

/-- The analyses of the loop, which has three operands and variables and gives four values, do not give
up when they may visit it seven, nine or thirteen times a block. -/
theorem Analysis.solve_converges_copiesAround : ∃ graph log,
    FlowGraph.build copiesAround = .ok (graph, log) ∧
    (∃ solution, Liveness.analysis.solve graph 7 = .ok solution) ∧
    (∃ solution, (DefinedVariables.analysis graph).solve graph 7 = .ok solution) ∧
    (∃ solution, (ReachingDefinitions.analysis graph).solve graph 9 = .ok solution) ∧
    ∃ solution, (ConstantPropagation.analysis graph).solve graph 13 = .ok solution := by
  have built : FlowGraph.build copiesAround = .ok _ := rfl
  refine ⟨_, _, built, (solve_converges built 7).1 ?_, (solve_converges built 7).2.1 ?_,
    (solve_converges built 9).2.2.1 ?_, (solve_converges built 13).2.2.2 ?_⟩
  all_goals decide +kernel

end Midend
