import Midend.Proofs.Checked.Passes
import Midend.Proofs.Checked.Registers
import Midend.Proofs.FlowGraph.Evolution

/-! # The index of a flow graph that changes

Each operation on a flow graph makes the index of its blocks anew or keeps it. With the index that was
stored with it a flow graph goes through the same operations as without one, and no check fails
(`Checked.evolved_of_iff`), so the index always has the places of the blocks (`Checked.current_of`). -/

namespace Midend

namespace Checked

open FlowGraph (Regular)
open Relation (ReflTransGen)

/-- The stored index has the places of the blocks, and no others. -/
def Indexed.Current (indexed : Indexed) : Prop :=
  ∀ name place, indexed.index.get? name = some place ↔
    ∃ block, indexed.graph.blocks[place]? = some block ∧ block.name = name

/-- One operation on a flow graph with its index. -/
inductive Evolves (indexed : Indexed) : Indexed → Prop where
  /-- An edge is split. -/
  | splitEdge {source target name : String} {after : Indexed} :
      indexed.splitEdge? source target = ofExcept (.ok (name, after)) → Evolves indexed after
  /-- Unreachable blocks are removed. -/
  | removeUnreachable {removed : List String} {after : Indexed} :
      indexed.removeUnreachable? = some (removed, after) → Evolves indexed after
  /-- The flow graph is brought into single assignment. -/
  | construct {after : Indexed} {log : Log} :
      construct? indexed = ofExcept (.ok (after, log)) → Evolves indexed after
  /-- The flow graph is brought out of single assignment. -/
  | destruct {after : Indexed} {log : Log} :
      destruct? indexed = ofExcept (.ok (after, log)) → Evolves indexed after
  /-- A pass is run, which may fail. -/
  | pass {pass : Pass} {outcome : IndexedOutcome Bool} :
      runPass? pass indexed = some outcome → Evolves indexed outcome.indexed
  /-- Copies are coalesced, for which no block is moved. -/
  | coalesce {before after : Interference} {graph : FlowGraph} {log : Log} :
      coalesce? indexed.graph before = some (graph, after, log) →
        Evolves indexed { indexed with graph }

variable {graph : FlowGraph} {after : Indexed}

/-- The index that is made for a flow graph is current. -/
theorem current_of (nodup : graph.names.Nodup) : (Indexed.of graph).Current := fun name place => by
  rw [get?_index nodup]
  exact FlowGraph.indexOf?_eq_some_iff nodup

/-- Computations with checks that succeed alike have the same answer. -/
theorem ofExcept_inj {α : Type} {left right : Except Error α} :
    ofExcept left = ofExcept right ↔ left = right :=
  ⟨fun same => Option.some.inj (congrArg ExceptT.run same), congrArg ofExcept⟩

/-- Coalescing keeps the names of blocks, and so it need not make the index anew. -/
theorem of_coalesce (regular : graph.Regular) (known : Interference) :
    ({ Indexed.of graph with graph := (Coalescing.run graph known).1 } : Indexed) =
      .of (Coalescing.run graph known).1 :=
  of_eq_of_names (Coalescing.remade_run regular.wellFormed known).recoded.names_eq

/-- With its index a flow graph changes as without it, and the index is current again. -/
theorem evolves_of_iff (regular : graph.Regular) :
    Evolves (.of graph) after ↔ ∃ next, after = .of next ∧ FlowGraph.Evolves graph next := by
  have nodup := regular.wellFormed.nodup_names
  -- What each operation answers with the index is known, so only the answers are taken apart.
  constructor
  · intro evolves
    cases evolves with
    | @splitEdge source target name after split =>
      rw [splitEdge?_eq nodup, ofExcept_inj] at split
      obtain ⟨⟨other, next⟩, isSplit, same⟩ := Attempt.map_eq_ok.1 split
      obtain ⟨rfl, rfl⟩ := Prod.mk.inj same
      exact ⟨next, rfl, .splitEdge isSplit⟩
    | removeUnreachable removed =>
      rw [removeUnreachable?_eq nodup] at removed
      obtain ⟨_, rfl⟩ := Prod.mk.inj (Option.some.inj removed)
      exact ⟨_, rfl, .removeUnreachable⟩
    | construct constructed =>
      rw [construct?_eq nodup, ofExcept_inj] at constructed
      obtain ⟨⟨next, log⟩, isNext, same⟩ := Attempt.map_eq_ok.1 constructed
      obtain ⟨rfl, rfl⟩ := Prod.mk.inj same
      exact ⟨next, rfl, .construct isNext⟩
    | destruct destructed =>
      rw [destruct?_eq nodup, ofExcept_inj] at destructed
      obtain ⟨⟨next, log⟩, isNext, same⟩ := Attempt.map_eq_ok.1 destructed
      obtain ⟨rfl, rfl⟩ := Prod.mk.inj same
      exact ⟨next, rfl, .destruct isNext⟩
    | @pass pass outcome ran =>
      rw [runPass?_eq nodup] at ran
      obtain rfl := Option.some.inj ran
      exact ⟨_, rfl, .pass pass⟩
    | @coalesce before after next log coalesced =>
      rw [Indexed.graph_of, coalesce?_eq] at coalesced
      obtain rfl : (Coalescing.run graph before).1 = next :=
        congrArg Prod.fst (Option.some.inj coalesced)
      exact ⟨_, of_coalesce regular before, .coalesce before⟩
  · rintro ⟨next, rfl, evolves⟩
    cases evolves with
    | @splitEdge source target name _ split =>
      have splits : (Indexed.of graph).splitEdge? source target = ofExcept (.ok (name, .of next)) := by
        rw [splitEdge?_eq nodup, split]
        rfl
      exact .splitEdge splits
    | removeUnreachable => exact .removeUnreachable (removeUnreachable?_eq nodup)
    | @construct _ log constructed =>
      have constructs : construct? (.of graph) = ofExcept (.ok (.of next, log)) := by
        rw [construct?_eq nodup, constructed]
        rfl
      exact .construct constructs
    | @destruct _ log destructed =>
      have destructs : destruct? (.of graph) = ofExcept (.ok (.of next, log)) := by
        rw [destruct?_eq nodup, destructed]
        rfl
      exact .destruct destructs
    | pass pass => exact .pass (runPass?_eq nodup pass)
    | coalesce known =>
      rw [← of_coalesce regular known]
      exact .coalesce (coalesce?_eq graph known)

/-- Operations in a row change a flow graph with its index as they change it without. -/
theorem evolved_of_iff (regular : graph.Regular) :
    ReflTransGen Evolves (.of graph) after ↔
      ∃ next, after = .of next ∧ ReflTransGen FlowGraph.Evolves graph next := by
  constructor
  · intro evolves
    induction evolves with
    | refl => exact ⟨graph, rfl, .refl⟩
    | tail _ step earlier =>
      obtain ⟨middle, rfl, evolves⟩ := earlier
      obtain ⟨next, rfl, evolvesOn⟩ :=
        (evolves_of_iff (FlowGraph.regular_of_evolves evolves regular)).1 step
      exact ⟨next, rfl, evolves.tail evolvesOn⟩
  · rintro ⟨next, rfl, evolves⟩
    induction evolves with
    | refl => exact .refl
    | tail evolves step earlier =>
      refine earlier.tail ((evolves_of_iff (FlowGraph.regular_of_evolves evolves regular)).2 ?_)
      exact ⟨_, rfl, step⟩

end Checked

end Midend
