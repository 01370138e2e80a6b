import Midend.Optimizer
import Midend.Proofs.FlowGraph.Build

/-! # Signatures

What is seen of a function from outside: its name, its parameters, the type of its result and where
it comes from. No operation on flow graphs changes it, whatever the code is and whether it is
well-formed or not; so a function that is taken into a flow graph, worked on and written out keeps
its signature (`FlowGraph.signature_build`, `Schedule.signature_run`, `FlowGraph.signature_flatten`). -/

namespace Midend

/-- What is seen of a function from outside. -/
structure Signature where
  /-- The name. -/
  name : String
  /-- The parameters in order. -/
  params : List Param
  /-- The type of the result, if there is one. -/
  returnType : Option Ty
  /-- Where the function comes from. -/
  pos : Option Position
  deriving DecidableEq

/-- The signature of a function. -/
def Func.signature (function : Func) : Signature :=
  ⟨function.name, function.params, function.returnType, function.pos⟩

namespace FlowGraph

/-- The signature of the function of a flow graph. -/
def signature (graph : FlowGraph) : Signature :=
  ⟨graph.name, graph.params, graph.returnType, graph.pos⟩

/-! ## Edits -/

@[simp] theorem signature_modifyBlock (graph : FlowGraph) (name : String)
    (change : Block → Block) : (graph.modifyBlock name change).signature = graph.signature := rfl

@[simp] theorem signature_freshBlockName (graph : FlowGraph) :
    graph.freshBlockName.2.signature = graph.signature := rfl

/-- A key is taken. -/
theorem signature_freshKey {graph after : FlowGraph} {key : Nat}
    (found : graph.freshKey = .ok (key, after)) : after.signature = graph.signature := by
  unfold freshKey at found
  split at found
  · obtain ⟨_, rfl⟩ := Prod.mk.inj (Except.ok.inj found)
    rfl
  · cases found

/-- Keys are taken. -/
theorem signature_freshKeys {graph after : FlowGraph} {instrs keyed : List Instr}
    (found : graph.freshKeys instrs = .ok (keyed, after)) : after.signature = graph.signature := by
  induction instrs generalizing graph after keyed with
  | nil =>
    obtain ⟨_, rfl⟩ := Prod.mk.inj (Except.ok.inj found)
    rfl
  | cons instr rest restIH =>
    obtain ⟨⟨key, middle⟩, taken, found⟩ := Attempt.bind_eq_ok.1 found
    obtain ⟨⟨others, last⟩, more, found⟩ := Attempt.bind_eq_ok.1 found
    obtain ⟨_, rfl⟩ := Prod.mk.inj (Except.ok.inj found)
    exact (restIH more).trans (signature_freshKey taken)

/-- An edge is split. -/
theorem signature_splitEdge {graph after : FlowGraph} {source target middle : String}
    (split : graph.splitEdge source target = .ok (middle, after)) :
    after.signature = graph.signature := by
  obtain ⟨_, _, _, _, _, rfl⟩ := splitEdge_eq_ok split
  rfl

/-- Unreachable blocks are removed. -/
theorem signature_removeUnreachable (graph : FlowGraph) :
    graph.removeUnreachable.2.signature = graph.signature := by
  unfold removeUnreachable
  dsimp only
  split <;> rfl

/-! ## From functions and back -/

/-- A function is taken into a flow graph. -/
theorem signature_build {function : Func} {graph : FlowGraph} {log : Log}
    (built : build function = .ok (graph, log)) : graph.signature = function.signature := by
  obtain ⟨start, _, entered, _, _, cutUp, added, terminated⟩ := exists_stages_of_build built
  obtain ⟨⟨_, blocks, last⟩, done, isGraph⟩ := Attempt.bind_eq_ok.1 terminated
  obtain ⟨_, rfl⟩ := Prod.mk.inj (Except.ok.inj isGraph)
  obtain ⟨_, _, _, _, rfl⟩ := terminate_eq_ok done
  obtain ⟨_, rfl⟩ := ofSegments_eq_ok cutUp
  rcases addEntry_cases added with ⟨rfl, _⟩ | ⟨_, _, _, _, _, _, rfl⟩
  · rfl
  · rfl

/-- A flow graph is written out. -/
theorem signature_flatten {graph : FlowGraph} {function : Func}
    (flat : graph.flatten = .ok function) : function.signature = graph.signature := by
  obtain ⟨instrs, _, flat⟩ := Attempt.bind_eq_ok.1 flat
  exact Except.ok.inj flat ▸ rfl

end FlowGraph

/-! ## Single assignment -/

namespace Ssa

open FlowGraph

/-- A block is renamed. -/
theorem signature_renameBlock {name : String} {scope next : Scope} {state after : Renaming}
    (renamed : renameBlock name scope state = .ok (next, after)) :
    after.graph.signature = state.graph.signature := by
  obtain ⟨block, _, renamed⟩ := Attempt.bind_eq_ok.1 renamed
  obtain ⟨⟨keyed, last⟩, taken, renamed⟩ := Attempt.bind_eq_ok.1 renamed
  obtain ⟨_, rfl⟩ := Prod.mk.inj (Except.ok.inj renamed)
  have keys := signature_freshKeys taken
  exact keys

mutual

/-- The blocks of a tree are renamed. -/
theorem signature_renameTree {tree : Dominance.Tree} {scope : Scope} {state after : Renaming}
    (renamed : renameTree tree scope state = .ok after) :
    after.graph.signature = state.graph.signature := by
  cases tree with
  | node name children =>
    rw [renameTree] at renamed
    obtain ⟨⟨next, middle⟩, here, renamed⟩ := Attempt.bind_eq_ok.1 renamed
    exact (signature_renameTrees renamed).trans (signature_renameBlock here)

/-- The blocks of trees are renamed. -/
theorem signature_renameTrees {trees : List Dominance.Tree} {scope : Scope}
    {state after : Renaming} (renamed : renameTrees trees scope state = .ok after) :
    after.graph.signature = state.graph.signature := by
  cases trees with
  | nil =>
    rw [renameTrees] at renamed
    exact Except.ok.inj renamed ▸ rfl
  | cons tree rest =>
    rw [renameTrees] at renamed
    obtain ⟨middle, here, renamed⟩ := Attempt.bind_eq_ok.1 renamed
    exact (signature_renameTrees renamed).trans (signature_renameTree here)

end

/-- Merges are put in. -/
theorem signature_insertPhis {list : List (String × List PendingPhi)} {graph after : FlowGraph}
    {log : Log} (inserted : insertPhis graph list = .ok (after, log)) :
    after.signature = graph.signature := by
  induction list generalizing graph after log with
  | nil =>
    obtain ⟨rfl, _⟩ := Prod.mk.inj (Except.ok.inj inserted)
    rfl
  | cons entry rest restIH =>
    obtain ⟨name, phis⟩ := entry
    obtain ⟨⟨keyed, middle⟩, taken, inserted⟩ := Attempt.bind_eq_ok.1 inserted
    obtain ⟨⟨last, more⟩, others, inserted⟩ := Attempt.bind_eq_ok.1 inserted
    obtain ⟨rfl, _⟩ := Prod.mk.inj (Except.ok.inj inserted)
    have keys := signature_freshKeys taken
    exact (restIH others).trans keys

/-- A flow graph is brought into single assignment. -/
theorem signature_construct {graph after : FlowGraph} {log : Log}
    (constructed : construct graph = .ok (after, log)) : after.signature = graph.signature := by
  unfold construct at constructed
  dsimp only at constructed
  split at constructed
  · split at constructed <;> cases constructed
  · split at constructed
    · cases constructed
      rfl
    · obtain ⟨dominance, _, constructed⟩ := Attempt.bind_eq_ok.1 constructed
      obtain ⟨state, renamed, constructed⟩ := Attempt.bind_eq_ok.1 constructed
      obtain ⟨⟨last, insertions⟩, inserted, constructed⟩ := Attempt.bind_eq_ok.1 constructed
      obtain ⟨rfl, _⟩ := Prod.mk.inj (Except.ok.inj constructed)
      calc last.signature = state.graph.signature := signature_insertPhis inserted
        _ = graph.removeUnreachable.2.signature := signature_renameTree renamed
        _ = graph.signature := signature_removeUnreachable graph

/-- Edges are split. -/
theorem signature_splitEdges {edges : List (String × String)} {graph after : FlowGraph} {log : Log}
    (split : splitEdges graph edges = .ok (after, log)) : after.signature = graph.signature := by
  induction edges generalizing graph after log with
  | nil =>
    obtain ⟨rfl, _⟩ := Prod.mk.inj (Except.ok.inj split)
    rfl
  | cons edge rest restIH =>
    obtain ⟨source, target⟩ := edge
    obtain ⟨⟨middle, next⟩, first, split⟩ := Attempt.bind_eq_ok.1 split
    obtain ⟨⟨last, more⟩, others, split⟩ := Attempt.bind_eq_ok.1 split
    obtain ⟨rfl, _⟩ := Prod.mk.inj (Except.ok.inj split)
    exact (restIH others).trans (signature_splitEdge first)

/-- Copies are put in. -/
theorem signature_insertCopies {list : List (String × List Copy)} {graph after : FlowGraph}
    {names : NameSupply} (inserted : insertCopies graph names list = .ok after) :
    after.signature = graph.signature := by
  induction list generalizing graph names with
  | nil => exact Except.ok.inj inserted ▸ rfl
  | cons entry rest restIH =>
    obtain ⟨name, copies⟩ := entry
    obtain ⟨⟨keyed, middle⟩, taken, inserted⟩ := Attempt.bind_eq_ok.1 inserted
    obtain ⟨_, _, inserted⟩ := Attempt.bind_eq_ok.1 inserted
    have keys := signature_freshKeys taken
    exact (restIH inserted).trans keys

/-- A flow graph is brought out of single assignment. -/
theorem signature_destruct {graph after : FlowGraph} {log : Log}
    (destructed : destruct graph = .ok (after, log)) : after.signature = graph.signature := by
  obtain ⟨edges, _, destructed⟩ := Attempt.bind_eq_ok.1 destructed
  obtain ⟨⟨middle, splits⟩, split, destructed⟩ := Attempt.bind_eq_ok.1 destructed
  obtain ⟨last, inserted, destructed⟩ := Attempt.bind_eq_ok.1 destructed
  obtain ⟨rfl, _⟩ := Prod.mk.inj (Except.ok.inj destructed)
  have copied := signature_insertCopies inserted
  have splits := signature_splitEdges split
  exact copied.trans splits

end Ssa

/-! ## Passes -/

namespace GlobalNumbering

/-- The values of a block are passed on. -/
theorem signature_propagate (place : Place) (table : ValueTable) (targets : List String)
    (graph : FlowGraph) : (propagate place table targets graph).1.signature = graph.signature := by
  induction targets generalizing graph with
  | nil => rfl
  | cons target rest restIH =>
    rw [propagate]
    split
    · exact restIH _
    · exact restIH graph

/-- A block is numbered. -/
theorem signature_visitBlock (name : String) (table : ValueTable) (graph : FlowGraph) :
    (visitBlock name table graph).1.signature = graph.signature := by
  unfold visitBlock
  split
  · rfl
  · exact signature_propagate _ _ _ _

mutual

/-- The blocks of a tree are numbered. -/
theorem signature_visitTree (tree : Dominance.Tree) (table : ValueTable) (graph : FlowGraph) :
    (visitTree tree table graph).1.signature = graph.signature := by
  cases tree with
  | node name children =>
    rw [visitTree]
    exact (signature_visitTrees children _ _).trans (signature_visitBlock name table graph)

/-- The blocks of trees are numbered. -/
theorem signature_visitTrees (trees : List Dominance.Tree) (table : ValueTable)
    (graph : FlowGraph) : (visitTrees trees table graph).1.signature = graph.signature := by
  cases trees with
  | nil => rw [visitTrees]
  | cons tree rest =>
    rw [visitTrees]
    exact (signature_visitTrees rest table _).trans (signature_visitTree tree table graph)

end

/-- Values are numbered. -/
theorem signature_run {graph after : FlowGraph} {log : Log} (ran : run graph = .ok (after, log)) :
    after.signature = graph.signature := by
  obtain ⟨dominance, _, ran⟩ := Attempt.bind_eq_ok.1 ran
  obtain ⟨rfl, _⟩ := Prod.mk.inj (Except.ok.inj ran)
  exact signature_visitTree _ _ _

end GlobalNumbering

namespace DeadCode

/-- Dead code is removed. -/
theorem signature_rounds (budget : Nat) (graph : FlowGraph) :
    (rounds budget graph).1.signature = graph.signature := by
  induction budget generalizing graph with
  | zero => rfl
  | succ budget budgetIH =>
    rw [rounds]
    split
    split
    · rfl
    · rename_i next log isNext _
      have same : next.signature = graph.signature := (Prod.mk.inj isNext).1 ▸ rfl
      exact (budgetIH next).trans same

end DeadCode

/-- A pass is run. -/
theorem Pass.signature_run (pass : Pass) (graph : FlowGraph) :
    (pass.run graph).graph.signature = graph.signature := by
  cases pass with
  | localNumbering => rfl
  | globalNumbering =>
    rw [run]
    split
    · rename_i ran
      exact GlobalNumbering.signature_run ran
    · rfl
  | deadCode limit => exact DeadCode.signature_rounds _ graph

namespace Schedule

section Kept

variable (holds : FlowGraph → Prop)
  (kept : ∀ (pass : Pass) (graph : FlowGraph), holds graph → holds (pass.run graph).graph)

include kept

/-- Passes one after another keep what every pass keeps. -/
theorem kept_runOnce (passes : List Pass) {graph : FlowGraph} (held : holds graph) :
    holds (runOnce passes graph).graph := by
  induction passes generalizing graph with
  | nil => exact held
  | cons pass rest restIH =>
    have first := kept pass graph held
    rw [runOnce]
    dsimp only
    split
    · exact first
    · exact restIH first

/-- Rounds of passes keep what every pass keeps. -/
theorem kept_runRounds (passes : List Pass) (budget round : Nat) {graph : FlowGraph}
    (held : holds graph) : holds (runRounds passes budget round graph).graph := by
  induction budget generalizing round graph with
  | zero => exact held
  | succ budget budgetIH =>
    have first := kept_runOnce holds kept passes held
    rw [runRounds]
    dsimp only
    split
    · exact first
    · exact first
    · exact budgetIH _ first

/-- A schedule keeps what every pass keeps. -/
theorem kept_run (schedule : Schedule) {graph : FlowGraph} (held : holds graph) :
    holds (schedule.run graph).graph :=
  kept_runRounds holds kept schedule.passes _ 1 held

end Kept

/-- A schedule is run. -/
theorem signature_run (schedule : Schedule) (graph : FlowGraph) :
    (schedule.run graph).graph.signature = graph.signature :=
  schedule.kept_run (fun after => after.signature = graph.signature)
    (fun pass after same => (pass.signature_run after).trans same) rfl

end Schedule

end Midend
