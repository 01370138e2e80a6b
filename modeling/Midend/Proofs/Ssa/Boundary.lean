import Mathlib.Data.List.DropRight
import Midend.Proofs.FlowGraph.Unreachable
import Midend.Proofs.Ssa.Destruct

/-! # Merges at the boundary of single assignment

The way into single assignment and the way out of it see the merges in front of a block and no
others: the one refuses code exactly if there are such merges, the other replaces exactly those
(`Ssa.merges_at_boundary`). A merge behind another instruction of its block gets through both. -/

namespace Midend

/-! ## Stray merges -/

/-- The merges of a block that stand behind another instruction. -/
def Block.strayPhis (block : Block) : List Instr := block.body.filter Instr.isPhi

/-- The merges of a flow graph that stand behind another instruction of their block. -/
def FlowGraph.strayPhis (graph : FlowGraph) : List Instr := graph.blocks.flatMap Block.strayPhis

namespace Block

/-- Changing leading merges changes nothing else. -/
theorem phis_mapPhis {change : Instr → Instr} (keeps : ∀ instr, (change instr).isPhi = instr.isPhi)
    (block : Block) : (block.mapPhis change).phis = block.phis.map change ∧
      (block.mapPhis change).body = block.body := by
  have leading : ∀ instr ∈ block.phis.map change, instr.isPhi = true := by
    intro instr member
    obtain ⟨phi, isPhi, rfl⟩ := List.mem_map.1 member
    rw [keeps]
    exact List.mem_takeWhile_imp isPhi
  have none : block.body.takeWhile Instr.isPhi = [] := by
    rw [body, List.takeWhile_eq_nil_iff]
    intro nonempty
    rw [List.get_eq_getElem, ← List.head_eq_getElem (List.ne_nil_of_length_pos nonempty),
      List.head_dropWhile_not Instr.isPhi]
    exact Bool.false_ne_true
  constructor
  · rw [phis, mapPhis, List.takeWhile_append_of_pos leading, none, List.append_nil]
  · rw [body, mapPhis, List.dropWhile_append_of_pos leading, body, List.dropWhile_idempotent]

/-- An instruction that is no merge at the end of a block is at the end of its body. -/
theorem phis_of_concat {block : Block} {front : List Instr} {last : Instr}
    (split : block.instrs = front ++ [last]) (plain : last.isPhi = false) :
    block.phis = front.takeWhile Instr.isPhi ∧
      block.body = front.dropWhile Instr.isPhi ++ [last] := by
  rw [phis, body, split, List.takeWhile_append, List.dropWhile_append]
  constructor
  · split
    · rename_i allPhis
      rw [List.takeWhile_cons_of_neg (by simp [plain]), List.append_nil]
      exact ((List.takeWhile_prefix _).eq_of_length allPhis).symm
    · rfl
  · split
    · rename_i allPhis
      rw [List.isEmpty_iff.1 allPhis, List.dropWhile_cons_of_neg (by simp [plain])]
      rfl
    · rfl

/-- Changing the end of a block changes the last instruction of its body at most. -/
theorem phis_mapTerminator {change : Instr → Instr}
    (keeps : ∀ instr, (change instr).isPhi = instr.isPhi) (block : Block) :
    (block.mapTerminator change).phis = block.phis ∧
      (block.mapTerminator change = block ∨ ∃ front terminator,
        terminator.isPhi = false ∧ block.body = front ++ [terminator] ∧
          (block.mapTerminator change).body = front ++ [change terminator]) := by
  rw [mapTerminator]
  split
  · rename_i terminator isEnd
    obtain ⟨isLast, ends⟩ := Option.filter_eq_some_iff.1 isEnd
    have plain : terminator.isPhi = false := by
      by_contra isPhi
      rw [isTerminator_of_isPhi (Bool.eq_true_of_not_eq_false isPhi)] at ends
      cases ends
    have split := (List.dropLast_append_getLast? terminator isLast).symm
    obtain ⟨phis_eq, body_eq⟩ := phis_of_concat split plain
    obtain ⟨changedPhis, changedBody⟩ := @phis_of_concat
      { block with instrs := block.instrs.dropLast ++ [change terminator] } _ _ rfl
      (by rw [keeps, plain])
    exact ⟨changedPhis.trans phis_eq.symm, .inr ⟨_, _, plain, body_eq, changedBody⟩⟩
  · exact ⟨rfl, .inl rfl⟩

end Block

namespace FlowGraph

/-- What a block shows whatever labels its merges and its end name, and a jump alone does not show. -/
structure Unlabelled {β : Type} (view : Block → List β) : Prop where
  /-- It does not depend on the labels of leading merges. -/
  mapPhis : ∀ change block, view (block.mapPhis (Instr.mapLabels change)) = view block
  /-- It does not depend on where the block leads. -/
  mapTerminator : ∀ change block, view (block.mapTerminator (Instr.mapLabels change)) = view block
  /-- A jump shows nothing. -/
  jump : ∀ name target key, view ⟨name, [(Instr.jmp target).withKey key]⟩ = []

/-- What leading merges show whatever their labels are. -/
theorem Unlabelled.of_phis {β : Type} {ofPhi : Instr → List β}
    (same : ∀ change phi, ofPhi (phi.mapLabels change) = ofPhi phi) :
    Unlabelled fun block => block.phis.flatMap ofPhi := by
  refine ⟨fun change block => ?_, fun change block => ?_, fun name target key => rfl⟩
  · obtain ⟨phis_eq, _⟩ :=
      @Block.phis_mapPhis (Instr.mapLabels change) (fun _ => Instr.isPhi_mapLabels ..) block
    simp only [phis_eq, List.flatMap_map, same]
  · obtain ⟨phis_eq, _⟩ :=
      @Block.phis_mapTerminator (Instr.mapLabels change) (fun _ => Instr.isPhi_mapLabels ..) block
    rw [phis_eq]

/-- What the other instructions show whatever their labels are. -/
theorem Unlabelled.of_body {β : Type} {ofInstr : Instr → List β}
    (same : ∀ change instr, instr.isPhi = false → ofInstr (instr.mapLabels change) = ofInstr instr)
    (jump : ∀ target key, ofInstr ((Instr.jmp target).withKey key) = []) :
    Unlabelled fun block => block.body.flatMap ofInstr := by
  refine ⟨fun change block => ?_, fun change block => ?_, fun name target key => ?_⟩
  · obtain ⟨_, body_eq⟩ :=
      @Block.phis_mapPhis (Instr.mapLabels change) (fun _ => Instr.isPhi_mapLabels ..) block
    rw [body_eq]
  · obtain ⟨_, unchanged | ⟨front, terminator, plain, body_eq, changed⟩⟩ :=
      @Block.phis_mapTerminator (Instr.mapLabels change) (fun _ => Instr.isPhi_mapLabels ..) block
    · rw [unchanged]
    · simp only [body_eq, changed, List.flatMap_append, List.flatMap_cons,
        same change terminator plain]
  · change ofInstr _ ++ [] = []
    rw [jump]
    rfl

/-- Changes of labels leave what blocks show. -/
theorem Unlabelled.flatMap_modifyBlock {β : Type} {view : Block → List β} (graph : FlowGraph)
    (name : String) {change : Block → Block} (keeps : ∀ block, view (change block) = view block) :
    (graph.modifyBlock name change).blocks.flatMap view = graph.blocks.flatMap view := by
  rw [modifyBlock, List.flatMap_map]
  refine List.flatMap_congr fun block _ => ?_
  split
  · exact keeps block
  · rfl

/-- Splitting an edge leaves what blocks show. -/
theorem Unlabelled.flatMap_splitEdge {β : Type} {view : Block → List β}
    (unlabelled : Unlabelled view) {graph after : FlowGraph} {source target middle : String}
    (split : graph.splitEdge source target = .ok (middle, after)) :
    after.blocks.flatMap view = graph.blocks.flatMap view := by
  obtain ⟨_, _, _, place, _, rfl⟩ := splitEdge_eq_ok split
  rw [List.flatMap_append, List.flatMap_cons, unlabelled.jump, List.nil_append,
    ← List.flatMap_append, List.take_append_drop, linked]
  exact (flatMap_modifyBlock _ _ (unlabelled.mapPhis _)).trans
    (flatMap_modifyBlock graph _ (unlabelled.mapTerminator _))

/-- Stray merges are seen whatever labels are. -/
theorem unlabelled_strayPhis : Unlabelled Block.strayPhis := by
  have shown : Block.strayPhis = fun block =>
      block.body.flatMap fun instr => [instr].filter Instr.isPhi := by
    funext block
    rw [← List.filter_flatMap, List.flatMap_singleton', Block.strayPhis]
  rw [shown]
  refine .of_body (fun change instr plain => ?_) fun _ _ => rfl
  rw [List.filter_singleton, List.filter_singleton, Instr.isPhi_mapLabels, plain]
  rfl

end FlowGraph

namespace Ssa

/-! ## The way out -/

/-- Splitting edges leaves what blocks show. -/
theorem flatMap_splitEdges {β : Type} {view : Block → List β} (unlabelled : FlowGraph.Unlabelled view)
    {graph after : FlowGraph} {edges : List (String × String)} {log : Log}
    (split : splitEdges graph edges = .ok (after, log)) :
    after.blocks.flatMap view = graph.blocks.flatMap view := by
  induction edges generalizing graph log with
  | nil =>
    obtain ⟨rfl, rfl⟩ := Prod.mk.inj (Except.ok.inj split)
    rfl
  | cons edge rest restIH =>
    obtain ⟨⟨middle, between⟩, splitFirst, split⟩ := Attempt.bind_eq_ok.1 split
    obtain ⟨⟨last, reports⟩, splitRest, split⟩ := Attempt.bind_eq_ok.1 split
    obtain ⟨rfl, rfl⟩ := Prod.mk.inj (Except.ok.inj split)
    rw [restIH splitRest, unlabelled.flatMap_splitEdge splitFirst]

/-- Copies are no merges. -/
theorem filter_isPhi_insertCopies {graph after : FlowGraph} {names : NameSupply}
    {list : List (String × List Copy)} (inserted : insertCopies graph names list = .ok after) :
    after.instrs.filter Instr.isPhi = graph.instrs.filter Instr.isPhi := by
  induction list generalizing graph names with
  | nil =>
    obtain rfl := Except.ok.inj inserted
    rfl
  | cons entry rest restIH =>
    obtain ⟨name, copies⟩ := entry
    obtain ⟨⟨keyed, between⟩, given, inserted⟩ := Attempt.bind_eq_ok.1 inserted
    obtain ⟨_, _, inserted⟩ := Attempt.bind_eq_ok.1 inserted
    obtain ⟨rekeyed, rfl⟩ := FlowGraph.freshKeys_eq_ok given
    have plain : keyed.filter Instr.isPhi = [] :=
      List.filter_eq_nil_iff.2 fun instr member => by simp [(copy_spec rekeyed member).2.2.1]
    rw [restIH inserted, FlowGraph.instrs, FlowGraph.instrs, FlowGraph.modifyBlock,
      List.flatMap_map, List.filter_flatMap, List.filter_flatMap]
    refine List.flatMap_congr fun block _ => ?_
    split
    · rw [Block.insertAt, List.filter_append, List.filter_append, plain, List.append_nil,
        ← List.filter_append, List.take_append_drop]
    · rfl

/-- The way out leaves exactly the stray merges. -/
theorem filter_isPhi_destruct {graph after : FlowGraph} {log : Log}
    (done : destruct graph = .ok (after, log)) :
    after.instrs.filter Instr.isPhi = graph.strayPhis := by
  obtain ⟨edges, _, done⟩ := Attempt.bind_eq_ok.1 done
  obtain ⟨⟨between, splits⟩, split, done⟩ := Attempt.bind_eq_ok.1 done
  obtain ⟨last, inserted, done⟩ := Attempt.bind_eq_ok.1 done
  obtain ⟨rfl, rfl⟩ := Prod.mk.inj (Except.ok.inj done)
  have kept := flatMap_splitEdges FlowGraph.unlabelled_strayPhis split
  rw [filter_isPhi_insertCopies inserted, FlowGraph.strayPhis, ← kept, FlowGraph.instrs,
    List.flatMap_map, List.filter_flatMap]
  rfl

/-! ## The way in -/

/-- A computation that does not find fault with code. -/
def Faultless {α : Type} (attempt : Except Error α) : Prop :=
  ∀ message, attempt ≠ .error (.malformed message)

/-- An answer has no fault. -/
theorem Faultless.pure {α : Type} (answer : α) : Faultless (.ok answer) := by
  intro message failed
  cases failed

/-- One computation after another. -/
theorem Faultless.bind {α β : Type} {first : Except Error α} {next : α → Except Error β}
    (faultless : Faultless first) (others : ∀ answer, Faultless (next answer)) :
    Faultless (first >>= next) := by
  intro message failed
  rcases Attempt.bind_eq_error.1 failed with failed | ⟨answer, _, failed⟩
  · exact faultless message failed
  · exact others answer message failed

/-- One element of a list after another. -/
theorem Faultless.mapM {α β : Type} {step : α → Except Error β} (list : List α)
    (faultless : ∀ element, Faultless (step element)) : Faultless (list.mapM step) := by
  intro message failed
  obtain ⟨element, _, failed⟩ := Attempt.exists_of_mapM_eq_error failed
  exact faultless element message failed

/-- Keys can only run out. -/
theorem faultless_freshKeys (graph : FlowGraph) (instrs : List Instr) :
    Faultless (graph.freshKeys instrs) :=
  fun _ failed => nomatch (FlowGraph.freshKeys_eq_error failed).1

/-- Dominance is that of any flow graph with a block. -/
theorem faultless_dominance {graph : FlowGraph} (nonempty : graph.blocks ≠ []) :
    Faultless (Dominance.ofFlowGraph graph) := by
  unfold Dominance.ofFlowGraph
  split
  · rename_i isEmpty
    exact absurd isEmpty nonempty
  refine .bind ?_ fun edges => ?_
  · refine .bind (.mapM _ fun _ => .mapM _ fun target => ?_) fun _ => .pure _
    split
    · exact nofun
    · exact nofun
  · split
    · dsimp only
      split
      · exact nofun
      · exact nofun
    · exact nofun

/-- Renaming a block finds no fault with it. -/
theorem faultless_renameBlock (name : String) (scope : Scope) (state : Renaming) :
    Faultless (renameBlock name scope state) := by
  refine .bind ?_ fun block => .bind (faultless_freshKeys _ _) fun _ => .pure _
  unfold FlowGraph.block
  split
  · exact nofun
  · exact nofun

mutual

/-- Renaming a tree finds no fault with it. -/
theorem faultless_renameTree (tree : Dominance.Tree) (scope : Scope) (state : Renaming) :
    Faultless (renameTree tree scope state) :=
  match tree with
  | .node name children =>
    .bind (faultless_renameBlock name scope state) fun (scope, state) =>
      faultless_renameTrees children scope state

/-- Renaming trees finds no fault with them. -/
theorem faultless_renameTrees (trees : List Dominance.Tree) (scope : Scope) (state : Renaming) :
    Faultless (renameTrees trees scope state) :=
  match trees with
  | [] => nofun
  | tree :: rest =>
    .bind (faultless_renameTree tree scope state) fun state =>
      faultless_renameTrees rest scope state

end

/-- Merges are put into any blocks. -/
theorem faultless_insertPhis (graph : FlowGraph) (list : List (String × List PendingPhi)) :
    Faultless (insertPhis graph list) := by
  induction list generalizing graph with
  | nil => exact .pure _
  | cons entry rest restIH =>
    exact .bind (faultless_freshKeys _ _) fun _ => .bind (restIH _) fun _ => .pure _

/-- The first block stays when unreachable ones are removed. -/
theorem removeUnreachable_ne_nil {graph : FlowGraph} (nonempty : graph.blocks ≠ []) :
    graph.removeUnreachable.2.blocks ≠ [] := by
  obtain ⟨first, rest, isCons⟩ := List.exists_cons_of_ne_nil nonempty
  have reached : (graph.digraph.reachable 0).contains 0 = true := by
    rw [BitSet.contains_iff, Digraph.mem_reachable (List.length_pos_iff.2 nonempty)]
    exact .refl _ _
  have kept : (first, 0) ∈ graph.blocks.zipIdx.filter fun entry =>
      (graph.digraph.reachable 0).contains entry.2 := by
    rw [isCons]
    exact List.mem_filter.2 ⟨List.mem_cons_self .., reached⟩
  unfold FlowGraph.removeUnreachable
  dsimp only
  split
  · exact nonempty
  · rw [Ne, List.map_eq_nil_iff, List.map_eq_nil_iff]
    exact List.ne_nil_of_mem kept

/-- The way in is open to code without merges in front of a block. -/
theorem faultless_construct {graph : FlowGraph}
    (found : graph.blocks.find? (fun block => decide (block.phiCount ≠ 0)) = none) :
    Faultless (construct graph) := by
  unfold construct
  rw [found]
  dsimp only
  split
  · exact .pure _
  · rename_i nonempty
    refine .bind (faultless_dominance ?_) fun dominance => ?_
    · exact removeUnreachable_ne_nil fun isEmpty => nonempty (by rw [isEmpty]; rfl)
    · exact .bind (faultless_renameTree _ _ _) fun state =>
        .bind (faultless_insertPhis _ _) fun _ => .pure _

/-- The way in is closed exactly to code with merges in front of a block. -/
theorem construct_eq_malformed_iff (graph : FlowGraph) :
    (∃ message, construct graph = .error (.malformed message)) ↔
      ∃ block ∈ graph.blocks, block.phis ≠ [] := by
  have leads_iff : ∀ block : Block, decide (block.phiCount ≠ 0) = true ↔ block.phis ≠ [] := by
    intro block
    rw [decide_eq_true_iff, Block.phiCount, Ne, List.length_eq_zero_iff]
  cases found : graph.blocks.find? fun block => decide (block.phiCount ≠ 0) with
  | some block =>
    have leads := List.find?_some found
    refine ⟨fun _ => ⟨block, List.mem_of_find?_eq_some found, (leads_iff block).1 leads⟩,
      fun _ => ?_⟩
    unfold construct
    rw [found]
    exact ⟨_, rfl⟩
  | none =>
    constructor
    · rintro ⟨message, failed⟩
      exact absurd failed (faultless_construct found message)
    · rintro ⟨block, member, leads⟩
      exact absurd ((leads_iff block).2 leads) (List.find?_eq_none.1 found block member)

/-! ## Results -/

/-- Code gets into single assignment without complaint unless a merge stands in front of a block,
and when it gets out, the merges left are those that stood behind other instructions. -/
theorem merges_at_boundary (graph : FlowGraph) :
    ((∃ message, construct graph = .error (.malformed message)) ↔
      ∃ block ∈ graph.blocks, block.phis ≠ []) ∧
    ∀ after log, destruct graph = .ok (after, log) →
      after.instrs.filter Instr.isPhi = graph.strayPhis :=
  ⟨construct_eq_malformed_iff graph, fun _ _ => filter_isPhi_destruct⟩

/-- A function with a merge behind another instruction. -/
def strayMerge : Func where
  name := "stray"
  params := [⟨"y", .int⟩]
  returnType := some .int
  instrs := [.label "a", .jmp "b", .label "b", .const "z" .int (.int 2),
    .phi "x" .int ["y"] ["a"], .ret (some "x")]
  pos := none

/-- A merge behind another instruction gets through both ways. -/
theorem strayMerge_gets_through : ∃ graph log, FlowGraph.build strayMerge = .ok (graph, log) ∧
    (∃ instr ∈ graph.instrs, instr.isPhi = true) ∧
    (∃ result, construct graph = .ok result ∧ ∃ instr ∈ result.1.instrs, instr.isPhi = true) ∧
      ∃ result, destruct graph = .ok result ∧ ∃ instr ∈ result.1.instrs, instr.isPhi = true :=
  ⟨_, _, rfl, by decide, ⟨_, rfl, by decide⟩, _, rfl, by decide⟩

end Ssa

end Midend
