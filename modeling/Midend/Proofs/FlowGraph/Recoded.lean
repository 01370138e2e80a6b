import Midend.Proofs.FlowGraph.WellFormed

/-! # Flow graphs with the same edges

A pass that changes the instructions of blocks but neither their names nor where they lead keeps all
that depends on the edges: paths, predecessors, dominance (`FlowGraph.Recoded`). -/

namespace Midend

namespace FlowGraph

/-- A flow graph whose blocks have other instructions but the same names and successors. -/
structure Recoded (graph after : FlowGraph) : Prop where
  /-- The function has the same name. -/
  name_eq : after.name = graph.name
  /-- The parameters are the same. -/
  params_eq : after.params = graph.params
  /-- Blocks have the same names and successors, and are well-formed. -/
  blocks : List.Forall₂ (fun block image => image.name = block.name ∧
    image.successors = block.successors ∧ image.WellFormed) graph.blocks after.blocks

namespace Recoded

variable {graph middle after : FlowGraph}

/-- A well-formed flow graph is like itself. -/
theorem refl (wellFormed : graph.WellFormed) : Recoded graph graph :=
  ⟨rfl, rfl, List.forall₂_same.2 fun block member => ⟨rfl, rfl, wellFormed.blocks block member⟩⟩

/-- Two changes in a row. -/
theorem trans (first : Recoded graph middle) (second : Recoded middle after) :
    Recoded graph after := by
  refine ⟨second.name_eq.trans first.name_eq, second.params_eq.trans first.params_eq, ?_⟩
  refine forall₂_trans (fun facts others => ?_) first.blocks second.blocks
  exact ⟨others.1.trans facts.1, others.2.1.trans facts.2.1, others.2.2⟩

/-- The names are the same. -/
theorem names_eq (recoded : Recoded graph after) : after.names = graph.names :=
  map_eq_of_forall₂ recoded.blocks fun _ _ facts => facts.1

/-- The entry has the same name. -/
theorem entryName_eq (recoded : Recoded graph after) : after.entryName = graph.entryName := by
  rw [entryName, entryName]
  have blocks := recoded.blocks
  generalize graph.blocks = left at blocks ⊢
  generalize after.blocks = right at blocks ⊢
  cases blocks with
  | nil => rfl
  | cons facts _ => exact facts.1

/-- The predecessors are the same. -/
theorem predecessorsOf_eq (recoded : Recoded graph after) (name : String) :
    after.predecessorsOf name = graph.predecessorsOf name := by
  rw [predecessorsOf, predecessorsOf]
  have blocks := recoded.blocks
  generalize graph.blocks = left at blocks ⊢
  generalize after.blocks = right at blocks ⊢
  induction blocks with
  | nil => rfl
  | cons facts _ restIH =>
    rw [List.filter_cons, List.filter_cons, facts.2.1]
    split
    · rw [List.map_cons, List.map_cons, restIH, facts.1]
    · exact restIH

/-- The successors are the same. -/
theorem successorsOf_eq (recoded : Recoded graph after) (name : String) :
    after.successorsOf name = graph.successorsOf name := by
  rw [successorsOf, successorsOf, find?, find?]
  have blocks := recoded.blocks
  generalize graph.blocks = left at blocks ⊢
  generalize after.blocks = right at blocks ⊢
  induction blocks with
  | nil => rfl
  | @cons block image _ _ facts _ restIH =>
    rw [List.find?_cons, List.find?_cons, facts.1]
    cases block.name == name with
    | true => exact facts.2.1
    | false => exact restIH

/-- The edges are the same. -/
theorem leads_eq (recoded : Recoded graph after) : after.Leads = graph.Leads := by
  funext source target
  rw [Leads, Leads, recoded.successorsOf_eq]

/-- Dominance is the same. -/
theorem dominates_eq (recoded : Recoded graph after) : after.Dominates = graph.Dominates := by
  funext upper lower
  rw [Dominates, Dominates, recoded.leads_eq, recoded.entryName_eq]

/-- The same blocks are reachable. -/
theorem reachable_eq (recoded : Recoded graph after) : after.Reachable = graph.Reachable := by
  funext name
  rw [Reachable, Reachable, recoded.leads_eq, recoded.entryName_eq]

/-- All blocks stay reachable. -/
theorem reachable_of_mem (recoded : Recoded graph after)
    (reachable : ∀ block ∈ graph.blocks, graph.Reachable block.name) :
    ∀ block ∈ after.blocks, after.Reachable block.name := by
  intro image member
  obtain ⟨block, inside, name_eq, _⟩ := exists_of_forall₂_right recoded.blocks member
  rw [recoded.reachable_eq, name_eq]
  exact reachable block inside

/-- The flow graph stays well-formed. -/
theorem wellFormed (recoded : Recoded graph after) (wellFormed : graph.WellFormed) :
    after.WellFormed := by
  refine ⟨fun empty => wellFormed.nonempty ?_, ?_, fun image member => ?_,
    fun image member target leads => ?_, fun image member => ?_, ?_⟩
  · have blocks := recoded.blocks
    rw [empty] at blocks
    exact List.forall₂_nil_right_iff.1 blocks
  · rw [recoded.names_eq]
    exact wellFormed.nodup_names
  · obtain ⟨_, _, _, _, isWellFormed⟩ := exists_of_forall₂_right recoded.blocks member
    exact isWellFormed
  · obtain ⟨block, inside, _, successors_eq, _⟩ := exists_of_forall₂_right recoded.blocks member
    rw [recoded.names_eq]
    exact wellFormed.target_mem block inside target (successors_eq ▸ leads)
  · obtain ⟨block, inside, _, successors_eq, _⟩ := exists_of_forall₂_right recoded.blocks member
    rw [recoded.entryName_eq, successors_eq]
    exact wellFormed.entry_fresh block inside
  · rw [paramNames, recoded.params_eq]
    exact wellFormed.nodup_params

end Recoded

end FlowGraph

end Midend
