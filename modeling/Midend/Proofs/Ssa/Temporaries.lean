import Midend.Proofs.Checked.Destruct
import Midend.Proofs.Ssa.Boundary
import Midend.Proofs.Ssa.Form
import Midend.Proofs.Ssa.Lowering

/-! # Temporaries of the way out of single assignment

Copies that form a cycle are broken up with temporaries. What the lowered code writes is what the
rest of the blocks wrote, the targets of the copies, and the temporaries, which are distinct and are
mentioned neither by the parameters nor by the rest of the blocks (`Ssa.destruct_temporaries`).
Names are collected when the leading merges are gone, so a variable of these alone may have the name
of a temporary, which then overwrites it (`Ssa.not_destruct_temporaries`). -/

namespace Midend

/-- The variables that an instruction mentions: the one that it writes and those that it reads. -/
def Instr.mentions (instr : Instr) : List String := instr.dest?.toList ++ instr.args

namespace FlowGraph

/-- What the blocks write behind their leading merges. -/
def bodyDests (graph : FlowGraph) : List String :=
  graph.blocks.flatMap fun block => block.body.filterMap Instr.dest?

/-- What the blocks mention behind their leading merges. -/
def bodyMentions (graph : FlowGraph) : List String :=
  graph.blocks.flatMap fun block => block.body.flatMap Instr.mentions

/-- What the leading merges mention. -/
def phiMentions (graph : FlowGraph) : List String :=
  graph.blocks.flatMap fun block => block.phis.flatMap Instr.mentions

/-- Instructions put into the block of a name are added to the others. -/
theorem instrs_modifyBlock_perm {graph : FlowGraph} (nodup : graph.names.Nodup) {name : String}
    (isName : name ∈ graph.names) (place : Block → Nat) (instrs : List Instr) :
    (graph.modifyBlock name fun block => block.insertAt (place block) instrs).instrs.Perm
      (graph.instrs ++ instrs) := by
  obtain ⟨block, member, rfl⟩ := List.mem_map.1 isName
  obtain ⟨front, back, split⟩ := List.append_of_mem member
  rw [names, split, List.map_append, List.map_cons] at nodup
  -- The other blocks have other names.
  have kept : ∀ list : List Block, block.name ∉ list.map Block.name →
      (list.map fun other => if other.name = block.name then other.insertAt (place other) instrs
        else other) = list := by
    intro list apart
    refine (List.map_congr_left fun other inside => if_neg fun same => ?_).trans (List.map_id' list)
    exact apart (same ▸ List.mem_map_of_mem inside)
  have put : (block.insertAt (place block) instrs).instrs.Perm (block.instrs ++ instrs) := by
    rw [Block.insertAt, List.append_assoc]
    refine (List.perm_append_comm.append_left _).trans ?_
    rw [← List.append_assoc, List.take_append_drop]
  obtain ⟨_, apartBack, apartFront⟩ := List.nodup_append'.1 nodup
  have notFront := fun inFront => apartFront inFront (List.mem_cons_self ..)
  have both : (graph.modifyBlock block.name fun block => block.insertAt (place block) instrs).blocks =
      front ++ block.insertAt (place block) instrs :: back := by
    rw [modifyBlock, split, List.map_append, List.map_cons, if_pos rfl, kept front notFront,
      kept back (List.nodup_cons.1 apartBack).1]
  rw [FlowGraph.instrs, both, FlowGraph.instrs, split, List.flatMap_append, List.flatMap_cons,
    List.flatMap_append, List.flatMap_cons, List.append_assoc, List.append_assoc]
  refine .append_left _ ((put.append_right _).trans ?_)
  rw [List.append_assoc]
  exact List.perm_append_comm.append_left _

/-- Without leading merges, what is written behind them is left. -/
theorem dests_withoutPhis (graph : FlowGraph) : graph.withoutPhis.dests = graph.bodyDests := by
  rw [dests, instrs, withoutPhis, List.flatMap_map, List.filterMap_flatMap, bodyDests]

/-- Without leading merges, what the parameters and the rest of the blocks mention is taken. -/
theorem taken_withoutPhis {graph : FlowGraph} {name : String} :
    name ∈ (NameSupply.ofGraph graph.withoutPhis).taken ↔
      name ∈ graph.paramNames ∨ name ∈ graph.bodyMentions := by
  rw [NameSupply.ofGraph, SortedSet.mem_ofList, List.mem_append, instrs, withoutPhis,
    List.flatMap_map, List.flatMap_assoc]
  rfl

end FlowGraph

namespace Ssa

/-! ## Ordered copies -/

/-- The copies that leading merges stand for, but for those of a variable to itself. -/
def moves (graph : FlowGraph) : List Copy :=
  ((graph.blocks.flatMap copiesOf).map Prod.snd).filter fun copy => copy.dest ≠ copy.src

variable {stems : String → Prop}

/-- The copies of a block write their targets and temporaries. -/
theorem dests_sequentialize {copies : List Copy} (names : NameSupply)
    (stemmed : ∀ copy ∈ copies.filter fun copy => copy.dest ≠ copy.src, stems (copy.dest ++ ".tmp")) :
    ∃ temporaries, ((sequentialize copies names).1.filterMap Instr.dest?).Perm
        ((copies.filter fun copy => copy.dest ≠ copy.src).map Copy.dest ++ temporaries) ∧
      NameSupply.Supplied stems names temporaries (sequentialize copies names).2 :=
  (orders_sequentialize copies names).dests stemmed

/-- The copies of blocks write their targets and temporaries. -/
theorem dests_insertCopies {graph after : FlowGraph} {names : NameSupply}
    {list : List (String × List Copy)} (nodup : graph.names.Nodup)
    (stemmed : ∀ copy ∈ (list.flatMap Prod.snd).filter fun copy => copy.dest ≠ copy.src,
      stems (copy.dest ++ ".tmp"))
    (inserted : insertCopies graph names list = .ok after) :
    ∃ temporaries last, after.dests.Perm (graph.dests ++
        (((list.flatMap Prod.snd).filter fun copy => copy.dest ≠ copy.src).map Copy.dest ++
          temporaries)) ∧ NameSupply.Supplied stems names temporaries last := by
  induction list generalizing graph names with
  | nil =>
    obtain rfl := Except.ok.inj inserted
    exact ⟨[], names, by simp, .nil names⟩
  | cons entry rest restIH =>
    obtain ⟨name, copies⟩ := entry
    rw [List.flatMap_cons, List.filter_append] at stemmed ⊢
    obtain ⟨first, writtenFirst, suppliedFirst⟩ := dests_sequentialize names
      fun copy member => stemmed copy (List.mem_append_left _ member)
    rw [insertCopies] at inserted
    generalize sequentialize copies names = ordered at inserted writtenFirst suppliedFirst
    obtain ⟨⟨keyed, between⟩, given, inserted⟩ := Attempt.bind_eq_ok.1 inserted
    obtain ⟨block, isBlock, inserted⟩ := Attempt.bind_eq_ok.1 inserted
    obtain ⟨rekeyed, rfl⟩ := FlowGraph.freshKeys_eq_ok given
    have isName : name ∈ graph.names :=
      FlowGraph.hasBlock_iff.1 (Option.isSome_of_eq_some (find?_of_block isBlock))
    obtain ⟨others, last, written, supplied⟩ := restIH
      (by rwa [FlowGraph.names_modifyBlock _ (fun block => block.insertAt _ keyed) fun _ => rfl])
      (fun copy member => stemmed copy (List.mem_append_right _ member)) inserted
    refine ⟨first ++ others, last, written.trans ?_, suppliedFirst.append supplied⟩
    have put := (FlowGraph.instrs_modifyBlock_perm nodup isName Block.insertionPoint
      keyed).filterMap Instr.dest?
    rw [List.filterMap_append, FlowGraph.filterMap_dest?_of_rekeyed rekeyed] at put
    refine ((put.trans (writtenFirst.append_left _)).append_right _).trans ?_
    rw [List.map_append, List.append_assoc, List.append_assoc, List.append_assoc]
    exact ((List.perm_append_comm_assoc _ _ _).append_left _).append_left _

/-! ## Results -/

/-- The copies that leading merges stand for are seen whatever labels are. -/
theorem unlabelled_copiesOf :
    FlowGraph.Unlabelled fun block => (copiesOf block).map Prod.snd := by
  simp only [copiesOf, List.map_flatMap]
  refine .of_phis fun change phi => ?_
  obtain ⟨action, pos, key⟩ := phi
  cases action with
  | compute op dest ty operands =>
    change (((operands.labels.map change).zip operands.args).map fun entry =>
      (entry.1, (⟨dest, entry.2, ty⟩ : Copy))).map Prod.snd =
        ((operands.labels.zip operands.args).map fun entry =>
          (entry.1, (⟨dest, entry.2, ty⟩ : Copy))).map Prod.snd
    rw [List.zip_map_left, List.map_map, List.map_map, List.map_map]
    rfl
  | _ => rfl

/-- Splitting edges leaves what is written and mentioned behind leading merges, and the copies that
these stand for. -/
theorem views_splitEdges {graph after : FlowGraph} {edges : List (String × String)} {log : Log}
    (split : splitEdges graph edges = .ok (after, log)) :
    after.bodyDests = graph.bodyDests ∧ after.bodyMentions = graph.bodyMentions ∧
      moves after = moves graph := by
  refine ⟨?_, flatMap_splitEdges (.of_body ?_ fun _ _ => rfl) split, ?_⟩
  · simp only [FlowGraph.bodyDests, List.filterMap_eq_flatMap_toList]
    refine flatMap_splitEdges (.of_body (fun change instr _ => ?_) fun _ _ => rfl) split
    rw [Instr.dest?_mapLabels]
  · intro change instr _
    rw [Instr.mentions, Instr.dest?_mapLabels, Instr.args_mapLabels, Instr.mentions]
  · rw [moves, moves, List.map_flatMap, List.map_flatMap,
      flatMap_splitEdges unlabelled_copiesOf split]

/-- The lowered code writes what the blocks wrote behind their leading merges, the targets of the
copies, and temporaries. These are distinct, named after targets of copies, and mentioned neither by
the parameters nor by the blocks behind their leading merges; if no leading merge mentions a variable
with the mark of a temporary, they are mentioned nowhere. -/
theorem destruct_temporaries {function : Func} {graph after : FlowGraph} {log events : Log}
    (built : FlowGraph.build function = .ok (graph, log))
    (done : destruct graph = .ok (after, events)) :
    ∃ temporaries, after.dests.Perm (graph.bodyDests ++ ((moves graph).map Copy.dest ++ temporaries)) ∧
      temporaries.Nodup ∧
      (∀ temporary ∈ temporaries, temporary ∉ graph.paramNames ∧ temporary ∉ graph.bodyMentions ∧
        ∃ move ∈ moves graph, ∃ number, temporary = numbered (move.dest ++ ".tmp") "." number) ∧
      ((∀ name ∈ graph.phiMentions, Unmarked name) →
        ∀ temporary ∈ temporaries, temporary ∉ graph.phiMentions) := by
  obtain ⟨edges, _, done⟩ := Attempt.bind_eq_ok.1 done
  obtain ⟨⟨between, splits⟩, split, done⟩ := Attempt.bind_eq_ok.1 done
  obtain ⟨last, inserted, done⟩ := Attempt.bind_eq_ok.1 done
  obtain ⟨rfl, rfl⟩ := Prod.mk.inj (Except.ok.inj done)
  have nodup : between.names.Nodup :=
    ((Checked.splitEdges?_eq (FlowGraph.nodup_names_of_build built) edges).2 _ split).1
  obtain ⟨dests_eq, mentions_eq, moves_eq⟩ := views_splitEdges split
  have params_eq : between.paramNames = graph.paramNames :=
    congrArg (fun signature => signature.params.map Param.name) (signature_splitEdges split)
  -- Grouping the copies by block changes nothing but their order.
  have grouped : (((copiesByBlock between).toList.flatMap Prod.snd).filter fun copy =>
      copy.dest ≠ copy.src).Perm (moves graph) := by
    rw [← moves_eq]
    exact (SortedMap.group_perm _).filter _
  change insertCopies between.withoutPhis (.ofGraph between.withoutPhis) _ = _ at inserted
  obtain ⟨temporaries, supply, written, supplied⟩ := @dests_insertCopies
    (fun stem => ∃ move ∈ moves graph, stem = move.dest ++ ".tmp") _ _ _ _
    (between.names_withoutPhis.symm ▸ nodup)
    (fun copy member => ⟨copy, grouped.subset member, rfl⟩) inserted
  -- The supply of names starts from what the code without its leading merges mentions.
  have isFresh : ∀ temporary ∈ temporaries, temporary ∉ graph.paramNames ∧
      temporary ∉ graph.bodyMentions ∧
        ∃ move ∈ moves graph, ∃ number, temporary = numbered (move.dest ++ ".tmp") "." number := by
    intro temporary member
    obtain ⟨stem, number, ⟨move, isMove, rfl⟩, isNumbered⟩ := supplied.stem temporary member
    have notTaken := supplied.notMem temporary member
    rw [FlowGraph.taken_withoutPhis, not_or, params_eq, mentions_eq] at notTaken
    exact ⟨notTaken.1, notTaken.2, move, isMove, number, isNumbered⟩
  refine ⟨temporaries, ?_, supplied.nodup, isFresh, fun unmarked temporary member isMention => ?_⟩
  · rw [between.dests_withoutPhis, dests_eq] at written
    exact written.trans (((grouped.map Copy.dest).append_right temporaries).append_left _)
  · obtain ⟨_, _, move, _, number, rfl⟩ := isFresh temporary member
    exact not_unmarked_numbered move.dest number (unmarked _ isMention)

/-- A loop that swaps two variables and keeps a third one. -/
def swapBeside (third : String) : FlowGraph where
  name := "swap"
  params := [⟨"go", .bool⟩]
  returnType := some .int
  pos := none
  blocks := [⟨"a", [.const "x0" .int (.int 1), .const "y0" .int (.int 2),
      .const "z0" .int (.int 7), .const "f" .bool (.bool false), .jmp "l"]⟩,
    ⟨"l", [.phi "g" .bool ["go", "f"] ["a", "l"], .phi "x" .int ["x0", "y"] ["a", "l"],
      .phi "y" .int ["y0", "x"] ["a", "l"], .phi third .int ["z0", third] ["a", "l"],
      .br "g" "l" "e"]⟩,
    ⟨"e", [.phi "r" .int [third] ["l"], .ret (some "r")]⟩]
  nextKey := 1
  nextBlock := 0

/-- The loop that swaps two variables written out. -/
def swapFunc (third : String) : Func where
  name := "swap"
  params := (swapBeside third).params
  returnType := some .int
  instrs := (swapBeside third).blocks.flatMap fun block => .label block.name :: block.instrs
  pos := none

/-- The temporary of the swap is mentioned nowhere else if the third variable is not named like it. -/
theorem destruct_temporaries_swapBeside : FlowGraph.build (swapFunc "z") = .ok (swapBeside "z", []) ∧
    ∃ after events temporaries, destruct (swapBeside "z") = .ok (after, events) ∧
    after.dests.Perm
      ((swapBeside "z").bodyDests ++ ((moves (swapBeside "z")).map Copy.dest ++ temporaries)) ∧
    ∀ temporary ∈ temporaries, temporary ∉ (swapBeside "z").phiMentions := by
  have built : FlowGraph.build (swapFunc "z") = .ok (swapBeside "z", []) := rfl
  obtain ⟨⟨after, events⟩, done⟩ : ∃ lowered, destruct (swapBeside "z") = .ok lowered := ⟨_, rfl⟩
  obtain ⟨temporaries, written, _, _, apart⟩ := destruct_temporaries built done
  exact ⟨built, after, events, temporaries, done, written, apart (by decide)⟩

/-- If it is, the temporary is a variable of the merges, whichever names are taken for temporaries,
and overwrites its value. -/
theorem not_destruct_temporaries :
    FlowGraph.build (swapFunc "x.tmp.0") = .ok (swapBeside "x.tmp.0", []) ∧
    ∃ after events input output, destruct (swapBeside "x.tmp.0") = .ok (after, events) ∧
    (∀ temporaries, after.dests.Perm ((swapBeside "x.tmp.0").bodyDests ++
        ((moves (swapBeside "x.tmp.0")).map Copy.dest ++ temporaries)) →
      ∃ temporary ∈ temporaries, temporary ∈ (swapBeside "x.tmp.0").phiMentions) ∧
    (swapBeside "x.tmp.0").flatten = .ok input ∧ after.flatten = .ok output ∧
    input.Yields .withoutFloats (fun _ _ => none) [.bool true] ⟨[], some (.int 7)⟩ ∧
    output.Yields .withoutFloats (fun _ _ => none) [.bool true] ⟨[], some (.int 1)⟩ := by
  obtain ⟨after, events, input, output, done, isInput, isOutput, before, behind⟩ :
      ∃ after events input output, destruct (swapBeside "x.tmp.0") = .ok (after, events) ∧
        (swapBeside "x.tmp.0").flatten = .ok input ∧ after.flatten = .ok output ∧
        input.Yields .withoutFloats (fun _ _ => none) [.bool true] ⟨[], some (.int 7)⟩ ∧
        output.Yields .withoutFloats (fun _ _ => none) [.bool true] ⟨[], some (.int 1)⟩ :=
    ⟨_, _, _, _, rfl, rfl, rfl, ⟨100, rfl⟩, ⟨100, rfl⟩⟩
  refine ⟨rfl, after, events, input, output, done, fun temporaries written => ?_, isInput, isOutput,
    before, behind⟩
  -- It is written twice afterwards, and one copy writes it.
  have isWritten : (destruct (swapBeside "x.tmp.0")).map (fun lowered => lowered.1.dests) =
      .ok ["x0", "y0", "z0", "f", "g", "x", "y", "x.tmp.0", "r", "g", "x.tmp.0", "x", "y"] := rfl
  rw [done] at isWritten
  rw [show after.dests = _ from Except.ok.inj isWritten] at written
  have counted := written.count_eq "x.tmp.0"
  rw [List.count_append, List.count_append] at counted
  have inBody : (swapBeside "x.tmp.0").bodyDests.count "x.tmp.0" = 0 := by decide
  have inMoves : ((moves (swapBeside "x.tmp.0")).map Copy.dest).count "x.tmp.0" = 1 := by decide
  rw [inBody, inMoves] at counted
  refine ⟨"x.tmp.0", List.count_pos_iff.1 ?_, by decide⟩
  have twice : ["x0", "y0", "z0", "f", "g", "x", "y", "x.tmp.0", "r", "g", "x.tmp.0", "x", "y"].count
      "x.tmp.0" = 2 := by decide
  omega

end Ssa

end Midend
