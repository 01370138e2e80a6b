import Midend.Proofs.Checked.Construct
import Midend.Proofs.Ssa.ParallelCopies

/-! # Checked way out of single assignment

Merges are cut off the fronts of blocks, and of the copies that stand for them one after another is
taken out. There always is one that can be taken out after a target was saved, so the copies are
ordered in the steps that they are given, and all checks pass (`Checked.destruct?_eq`). -/

namespace Midend

namespace FlowGraph

variable {graph after : FlowGraph}

/-- Blocks have names of their own after an edge is split. -/
theorem nodup_names_splitEdge (nodup : graph.names.Nodup) {source target middle : String}
    (split : graph.splitEdge source target = .ok (middle, after)) :
    after.names.Nodup ∧ after.names ≠ [] :=
  ⟨(names_splitEdge split).nodup_iff.2 (List.nodup_cons.2 ⟨(splitEdge_eq_ok split).2.1, nodup⟩),
    fun empty => List.cons_ne_nil _ _ (List.nil_perm.1 (empty ▸ names_splitEdge split))⟩

end FlowGraph

namespace Checked

open Ssa

/-! ## Copies -/

/-- Orders pending copies, `budget` steps at most. -/
def sequentializeFrom? :
    (budget : Nat) → List Copy → NameSupply → Option (List Instr × NameSupply)
  | _, [], names => some ([], names)
  | 0, _ :: _, _ => none
  | budget + 1, first :: rest, names =>
    let pending := first :: rest
    match readyCopy? pending with
    | some place => do
      let (copy, pending) ← takeOut? pending place
      let (instrs, names) ← sequentializeFrom? budget pending names
      return (Instr.copy copy.dest copy.ty copy.src :: instrs, names)
    | none => do
      let blocked ← pending[0]?
      let (temporary, names) := names.fresh (blocked.dest ++ ".tmp")
      let redirected := redirect blocked.dest temporary pending
      let (instrs, names) ← sequentializeFrom? budget redirected names
      return (Instr.copy temporary blocked.ty blocked.dest :: instrs, names)

/-- Copies in an order that gives every target the value that its source had before all of them. -/
def sequentialize? (copies : List Copy) (names : NameSupply) :
    Option (List Instr × NameSupply) :=
  let pending := copies.filter fun copy => copy.dest ≠ copy.src
  sequentializeFrom? (2 * pending.length) pending names

/-- The checks on ordering copies pass: a copy takes two steps at most, and one if a copy is ready. -/
theorem sequentializeFrom?_eq {budget : Nat} {pending : List Copy} (names : NameSupply)
    (enough : 2 * pending.length ≤ budget + if (readyCopy? pending).isSome then 1 else 0) :
    sequentializeFrom? budget pending names = some (sequentializeFrom budget pending names) := by
  induction budget generalizing pending names with
  | zero =>
    cases pending with
    | nil => rfl
    | cons first rest =>
      rw [List.length_cons] at enough
      split at enough <;> omega
  | succ budget budgetIH =>
    cases pending with
    | nil => rfl
    | cons first rest =>
      rw [sequentializeFrom?, sequentializeFrom]
      dsimp only
      cases ready : readyCopy? (first :: rest) with
      | some place =>
        obtain ⟨front, copy, back, split, isPlace, _⟩ := exists_of_readyCopy? ready
        have found : (first :: rest)[place]? = some copy := by
          rw [split, isPlace]
          simp
        have fewer : ((first :: rest).eraseIdx place).length = rest.length := by
          rw [List.length_eraseIdx_of_lt (List.getElem?_eq_some_iff.1 found).1]
          rfl
        rw [ready, List.length_cons] at enough
        dsimp only
        rw [takeOut?_eq found, some_bind, budgetIH _ (by rw [fewer]; split at * <;> omega)]
        rw [List.getD_eq_getElem?_getD, found]
        rfl
      | none =>
        dsimp only
        rw [ready, List.length_cons] at enough
        -- Saving a variable makes the first copy ready, which accounts for the second step.
        have isReady := isSome_readyCopy?_redirect first rest (fresh_ne names first.dest)
        show sequentializeFrom? budget _ _ >>= _ = _
        rw [budgetIH]
        · rfl
        · rw [isReady, redirect, List.length_map, List.length_cons]
          simpa using enough

/-- The checks on ordering the copies of a block pass. -/
theorem sequentialize?_eq (copies : List Copy) (names : NameSupply) :
    sequentialize? copies names = some (sequentialize copies names) :=
  sequentializeFrom?_eq names (Nat.le_add_right ..)

/-! ## Lowering -/

/-- The edges into leading merges from blocks with several successors, each once. -/
def criticalEdges? (indexed : Indexed) : Checked (List (String × String)) := do
  let edges ← indexed.graph.blocks.mapM fun block => do
    let sources := indexed.graph.predecessorsOf block.name
    let labels := block.phis.flatMap Instr.labels
    match labels.find? fun label => !sources.contains label with
    | some label =>
      throw (.malformed ("Phi in '" ++ block.name ++ "' of '" ++ indexed.graph.name ++
        "' names '" ++ label ++ "', which is not a predecessor"))
    | none =>
      let critical ← ofOption (labels.filterM fun label =>
        (indexed.successorsOf? label).map fun successors => 1 < successors.length)
      return critical.map fun label => (label, block.name)
  return edges.flatten.eraseDups

/-- Splits edges one after another. -/
def splitEdges? (indexed : Indexed) : List (String × String) → Checked (Indexed × Log)
  | [] => return (indexed, [])
  | (source, target) :: rest => do
    let (middle, indexed) ← indexed.splitEdge? source target
    let report := event indexed.graph .edgeSplit middle (source ++ " -> " ++ target)
    let (indexed, log) ← splitEdges? indexed rest
    return (indexed, report :: log)

/-- Cuts the merges off the front of a block. -/
def dropPhis? (block : Block) : Option Block := do
  let instrs ← onward? block.instrs block.phiCount
  return { block with instrs }

/-- Adds the copies of each block at its end. -/
def insertCopies? (indexed : Indexed) (names : NameSupply) :
    List (String × List Copy) → Checked Indexed
  | [] => return indexed
  | (name, copies) :: rest => do
    let (instrs, names) ← ofOption (sequentialize? copies names)
    let (keyed, graph) ← ofExcept (indexed.graph.freshKeys instrs)
    let indexed ← { indexed with graph : Indexed }.modify? name (addAtEnd? keyed)
    insertCopies? indexed names rest

/-- Replaces the leading merges of all blocks by copies. -/
def destruct? (indexed : Indexed) : Checked (Indexed × Log) := do
  let (indexed, splits) ← splitEdges? indexed (← criticalEdges? indexed)
  let copies := copiesByBlock indexed.graph
  let lowered := (indexed.graph.blocks.flatMap Block.phis).length
  let blocks ← ofOption (indexed.graph.blocks.mapM dropPhis?)
  let indexed := { indexed with graph := { indexed.graph with blocks } }
  let indexed ← insertCopies? indexed (.ofGraph indexed.graph) copies.toList
  let report : Event :=
    { kind := .info, function := some indexed.graph.name, pass := some passName,
      message := toString lowered ++ " phis lowered to copies" }
  return (indexed, splits ++ if lowered = 0 then [] else [report])

section Lowering

variable {graph : FlowGraph}

/-- The checks on the search for edges pass. -/
theorem criticalEdges?_eq (nodup : graph.names.Nodup) :
    criticalEdges? (.of graph) = ofExcept (criticalEdges graph) := by
  refine bind_eq (mapM_eq fun block _ => ?_) fun edges _ => rfl
  dsimp only [Indexed.graph_of]
  cases (block.phis.flatMap Instr.labels).find? fun label =>
      !(graph.predecessorsOf block.name).contains label with
  | some label => rfl
  | none =>
    have isCritical := @filterM_eq_some _ (block.phis.flatMap Instr.labels)
      (fun label => ((Indexed.of graph).successorsOf? label).map fun successors =>
        decide (1 < successors.length))
      (fun label => decide (1 < (graph.successorsOf label).length)) fun label _ => by
        rw [successorsOf?_eq nodup, Option.map_some]
    dsimp only
    rw [isCritical]
    rfl

/-- The checks on splitting edges pass, and blocks keep names of their own. -/
theorem splitEdges?_eq (nodup : graph.names.Nodup) (edges : List (String × String)) :
    splitEdges? (.of graph) edges =
      ofExcept ((splitEdges graph edges).map fun split => (.of split.1, split.2)) ∧
    ∀ split, splitEdges graph edges = .ok split →
      split.1.names.Nodup ∧ (graph.names ≠ [] → split.1.names ≠ []) := by
  induction edges generalizing graph with
  | nil =>
    refine ⟨rfl, fun split done => ?_⟩
    obtain rfl := Except.ok.inj done
    exact ⟨nodup, id⟩
  | cons edge rest restIH =>
    obtain ⟨source, target⟩ := edge
    rw [splitEdges?, splitEdges]
    constructor
    · refine bind_map_eq (splitEdge?_eq nodup source target) fun first isFirst => ?_
      exact bind_map_eq (restIH (FlowGraph.nodup_names_splitEdge nodup isFirst).1).1 fun others _ => rfl
    · intro split done
      obtain ⟨first, isFirst, done⟩ := Attempt.bind_eq_ok.1 done
      obtain ⟨others, areOthers, done⟩ := Attempt.bind_eq_ok.1 done
      obtain rfl := Except.ok.inj done
      have first := FlowGraph.nodup_names_splitEdge nodup isFirst
      obtain ⟨kept, nonempty⟩ := (restIH first.1).2 others areOthers
      exact ⟨kept, fun _ => nonempty first.2⟩

/-- The check on the merges at the front of a block passes. -/
theorem dropPhis?_eq (block : Block) :
    dropPhis? block = some { block with instrs := block.body } := by
  rw [dropPhis?, onward?_eq block.phiCount_le, block.drop_phiCount]
  rfl

/-- The checks on adding copies pass. -/
theorem insertCopies?_eq (nodup : graph.names.Nodup) (names : NameSupply)
    (list : List (String × List Copy)) :
    insertCopies? (.of graph) names list = ofExcept ((insertCopies graph names list).map .of) := by
  induction list generalizing graph names with
  | nil => rfl
  | cons entry rest restIH =>
    obtain ⟨name, copies⟩ := entry
    rw [insertCopies?, insertCopies, sequentialize?_eq, ofOption_some, ofExcept_ok_bind]
    refine bind_next_eq rfl fun keyed isKeyed => ?_
    have names_eq := names_freshKeys isKeyed
    have nodupKeyed : keyed.2.names.Nodup := names_eq ▸ nodup
    dsimp only
    rw [of_eq_of_names names_eq, FlowGraph.block]
    cases found : keyed.2.find? name with
    | none =>
      rw [Indexed.modify?, (seek?_eq nodupKeyed name).1 found]
      rfl
    | some block =>
      rw [modify?_eq nodupKeyed found (fun block => block.insertAt block.insertionPoint keyed.1)
        (addAtEnd?_eq keyed.1 block) fun _ isName => isName, ofExcept_ok_bind]
      refine restIH ?_ _
      rw [FlowGraph.names_modifyBlock]
      · exact nodupKeyed
      · exact fun _ => rfl

/-- The checks on the way out of single assignment pass. -/
theorem destruct?_eq (nodup : graph.names.Nodup) :
    destruct? (.of graph) =
      ofExcept ((destruct graph).map fun lowered => (.of lowered.1, lowered.2)) := by
  rw [destruct?, destruct]
  refine bind_next_eq (criticalEdges?_eq nodup) fun edges _ => ?_
  obtain ⟨passes, kept⟩ := splitEdges?_eq nodup edges
  refine bind_map_eq passes fun split isSplit => ?_
  dsimp only [Indexed.graph_of]
  rw [mapM_eq_some fun block _ => dropPhis?_eq block, ofOption_some, ofExcept_ok_bind]
  have names_eq : ({ split.1 with blocks := split.1.blocks.map fun block =>
      { block with instrs := block.body } } : FlowGraph).names = split.1.names := by
    rw [FlowGraph.names, List.map_map]
    rfl
  rw [of_eq_of_names names_eq]
  exact bind_map_eq (insertCopies?_eq (names_eq ▸ (kept split isSplit).1) _ _) fun _ _ => rfl

/-- Copies are added within blocks. -/
theorem names_insertCopies {names : NameSupply} {list : List (String × List Copy)}
    {after : FlowGraph} (done : insertCopies graph names list = .ok after) :
    after.names = graph.names := by
  induction list generalizing graph names with
  | nil =>
    obtain rfl := Except.ok.inj done
    rfl
  | cons entry rest restIH =>
    obtain ⟨keyed, isKeyed, done⟩ := Attempt.bind_eq_ok.1 done
    obtain ⟨_, _, done⟩ := Attempt.bind_eq_ok.1 done
    rw [restIH done, FlowGraph.names_modifyBlock, names_freshKeys isKeyed]
    exact fun _ => rfl

/-- Out of single assignment there still are blocks, with names of their own. -/
theorem names_destruct (nodup : graph.names.Nodup) {lowered : FlowGraph × Log}
    (done : destruct graph = .ok lowered) :
    lowered.1.names.Nodup ∧ (graph.names ≠ [] → lowered.1.names ≠ []) := by
  obtain ⟨edges, _, done⟩ := Attempt.bind_eq_ok.1 done
  obtain ⟨split, isSplit, done⟩ := Attempt.bind_eq_ok.1 done
  obtain ⟨after, inserted, same⟩ := Attempt.bind_eq_ok.1 done
  obtain rfl := Except.ok.inj same
  have names_eq : after.names = split.1.names := by
    refine (names_insertCopies inserted).trans ?_
    rw [FlowGraph.names, List.map_map]
    rfl
  show after.names.Nodup ∧ (_ → after.names ≠ [])
  rw [names_eq]
  exact (splitEdges?_eq nodup edges).2 split isSplit

end Lowering

end Checked

end Midend
