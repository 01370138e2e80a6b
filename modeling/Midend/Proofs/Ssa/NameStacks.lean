import Midend.Proofs.Attempt
import Midend.Proofs.Dominance.Tree
import Midend.Proofs.Sorted
import Midend.Ssa.Construct

/-! # Stacks of names

The walk down the dominator tree gives each tree of blocks the names in force at the block above it.
One stack of names for each variable does for all of them: a block pushes the names that it gives, and
they are popped once its tree is left. Frames for what is still to be entered and to be left take the
place of the recursion (`Ssa.walkFrames`). Either way the code is the same
(`Ssa.construct_eq_constructByStacks`). -/

namespace Midend

namespace Ssa

/-- The names given to each variable, the last one on top. -/
abbrev NameStacks := SortedMap String (List String)

namespace NameStacks

/-- The names of a variable, the last one first. -/
def stack (given : NameStacks) (var : String) : List String := given.getD var []

/-- The name in force for a variable. -/
def top? (given : NameStacks) (var : String) : Option String := (given.stack var).head?

/-- Gives a variable another name. -/
def push (given : NameStacks) (var name : String) : NameStacks :=
  given.alter var fun known => name :: known.getD []

/-- Takes the last name of a variable back. -/
def pop (given : NameStacks) (var : String) : NameStacks :=
  match given.get? var with
  | some names => given.insert var names.tail
  | none => given

/-- The names in force. -/
def tops (given : NameStacks) : Scope :=
  .ofList (given.toList.filterMap fun entry => entry.2.head?.map fun name => (entry.1, name))

variable (given : NameStacks) (var other name : String)

/-- The names of variables after one has got another name. -/
theorem stack_push : (given.push var name).stack other =
    if other = var then name :: given.stack other else given.stack other := by
  rw [stack, push, SortedMap.getD, SortedMap.get?_alter]
  split
  · rename_i same
    rw [same]
    rfl
  · rfl

/-- The names of variables after the last name of one was taken back. -/
theorem stack_pop : (given.pop var).stack other =
    if other = var then (given.stack other).tail else given.stack other := by
  unfold pop
  split
  · rename_i names found
    rw [stack, SortedMap.getD, SortedMap.get?_insert_eq]
    split
    · rename_i same
      rw [same, stack, SortedMap.getD, found]
      rfl
    · rfl
  · rename_i missing
    split
    · rename_i same
      rw [same, stack, SortedMap.getD, missing]
      rfl
    · rfl

/-- The names in force by variable. -/
theorem get?_tops : given.tops.get? var = given.top? var := by
  -- Variables without a name in force are left out, so those that stay are still distinct.
  have sublist : List.Sublist ((given.toList.filterMap fun entry =>
      entry.2.head?.map fun name => (entry.1, name)).map Prod.fst) given.keys := by
    rw [SortedMap.keys]
    induction given.toList with
    | nil => exact .slnil
    | cons entry rest restIH =>
      rw [List.filterMap_cons, List.map_cons]
      cases entry.2.head? with
      | none => exact restIH.cons _
      | some name => exact restIH.cons_cons _
  refine Option.ext fun name => ?_
  rw [tops, SortedMap.get?_ofList_eq_some_iff (given.nodup_keys.sublist sublist), List.mem_filterMap,
    top?, stack, SortedMap.getD]
  constructor
  · rintro ⟨⟨_, names⟩, member, isTop⟩
    obtain ⟨_, isHead, same⟩ := Option.map_eq_some_iff.1 isTop
    obtain ⟨rfl, rfl⟩ := Prod.mk.inj same
    rw [SortedMap.get?_eq_some_iff.2 member]
    exact isHead
  · intro isTop
    cases found : given.get? var with
    | none =>
      rw [found] at isTop
      cases isTop
    | some names =>
      rw [found] at isTop
      exact ⟨(var, names), SortedMap.get?_eq_some_iff.1 found, by
        rw [show names.head? = some name from isTop]; rfl⟩

/-- A name that is pushed is in force. -/
theorem tops_push : (given.push var name).tops = given.tops.insert var name := by
  refine SortedMap.ext fun other => ?_
  rw [get?_tops, top?, stack_push, SortedMap.get?_insert_eq]
  split
  · rfl
  · rw [get?_tops, top?]

/-- The same names are in force where the stacks are the same. -/
theorem tops_congr {left right : NameStacks} (same : ∀ var, left.stack var = right.stack var) :
    left.tops = right.tops := by
  refine SortedMap.ext fun var => ?_
  rw [get?_tops, get?_tops, top?, top?, same]

/-- Takes the last names of variables back. -/
def popAll (pushed : List String) (given : NameStacks) : NameStacks := pushed.foldl pop given

/-- Each variable loses as many names as it is listed times. -/
theorem stack_popAll (pushed : List String) : (given.popAll pushed).stack var =
    (given.stack var).drop (pushed.count var) := by
  induction pushed generalizing given with
  | nil => rfl
  | cons first rest restIH =>
    rw [popAll, List.foldl_cons, ← popAll, restIH, stack_pop, List.count_cons]
    by_cases same : var = first
    · rw [if_pos same, same, beq_self_eq_true, if_pos rfl, List.drop_tail]
    · rw [if_neg same, beq_eq_false_iff_ne.2 (Ne.symm same), if_neg Bool.false_ne_true, Nat.add_zero]

/-- Stacks on which some variables got a name for each time that they are listed. -/
def Grown (given : NameStacks) (pushed : List String) (after : NameStacks) : Prop :=
  ∀ var, (after.stack var).drop (pushed.count var) = given.stack var

namespace Grown

variable {given} {middle after : NameStacks} {pushed more : List String}

/-- Nothing was pushed. -/
theorem refl : Grown given [] given := fun _ => rfl

/-- One name was pushed, and then others were. -/
theorem push {var name : String} (grown : Grown (given.push var name) pushed after) :
    Grown given (var :: pushed) after := by
  intro other
  have above := grown other
  rw [stack_push] at above
  rw [List.count_cons]
  by_cases same : other = var
  · rw [if_pos same] at above
    rw [same, beq_self_eq_true, if_pos rfl, ← List.tail_drop, ← same, above, List.tail_cons]
  · rw [if_neg same] at above
    rw [beq_eq_false_iff_ne.2 (Ne.symm same), if_neg Bool.false_ne_true, Nat.add_zero, above]

/-- Some names were pushed after others. -/
theorem trans (first : Grown given pushed middle) (second : Grown middle more after) :
    Grown given (pushed ++ more) after := by
  intro var
  rw [List.count_append, Nat.add_comm, ← List.drop_drop, second, first]

/-- Taking back what was pushed leaves the names that there were. -/
theorem stack_popAll_eq (grown : Grown given pushed middle)
    (same : ∀ var, after.stack var = middle.stack var) (var : String) :
    (after.popAll pushed).stack var = given.stack var := by
  rw [stack_popAll, same, grown]

end Grown

end NameStacks

open NameStacks (Grown)

/-! ## A block -/

/-- Names the results of merges; answers the variables that got a name too. -/
def pushPhis : List PendingPhi → NameStacks → NameSupply →
    List PendingPhi × NameStacks × List String × NameSupply
  | [], given, names => ([], given, [], names)
  | phi :: rest, given, names =>
    let (dest, names) := names.fresh phi.var
    let (rest, given, pushed, names) := pushPhis rest (given.push phi.var dest) names
    ({ phi with dest } :: rest, given, phi.var :: pushed, names)

/-- Renames the reads and writes of instructions in order; answers the variables that got a name
too. -/
def pushInstrs : List Instr → NameStacks → NameSupply →
    List Instr × NameStacks × List String × NameSupply
  | [], given, names => ([], given, [], names)
  | instr :: rest, given, names =>
    let instr := instr.mapArgs fun arg => (given.top? arg).getD arg
    match instr.dest? with
    | some dest =>
      let (name, names) := names.fresh dest
      let (rest, given, pushed, names) := pushInstrs rest (given.push dest name) names
      (instr.mapDest (fun _ => name) :: rest, given, dest :: pushed, names)
    | none =>
      let (rest, given, pushed, names) := pushInstrs rest given names
      (instr :: rest, given, pushed, names)

/-- Renames one block and gives its successors their values; answers the names given by its end, and
which variables got one. -/
def enterBlock (name : String) (given : NameStacks) (state : Renaming) :
    Except Error (NameStacks × List String × Renaming) := do
  let pending := state.phis.getD name []
  let (pending, given, merged, names) := pushPhis pending given state.names
  let phis := if pending.isEmpty then state.phis else state.phis.insert name pending
  let block ← state.graph.block name
  let (instrs, given, written, names) := pushInstrs block.instrs given names
  let graph := state.graph.modifyBlock name fun block => { block with instrs }
  let (phis, undefs, names) :=
    fillSuccessors name given.tops (graph.successorsOf name) phis {} names
  let (keyed, graph) ← graph.freshKeys undefs.instrs
  let graph := graph.modifyBlock name fun block => block.insertAt block.insertionPoint keyed
  let reports := keyed.filterMap fun instr => instr.dest?.map (event graph .undefInserted name)
  return (given, merged ++ written, { graph, phis, names, log := state.log ++ reports })

/-- The results of merges are named alike, and the stacks grow by their names. -/
theorem pushPhis_spec (phis : List PendingPhi) (given : NameStacks) (names : NameSupply) :
    namePhis phis given.tops names = ((pushPhis phis given names).1,
      (pushPhis phis given names).2.1.tops, (pushPhis phis given names).2.2.2) ∧
    Grown given (pushPhis phis given names).2.2.1 (pushPhis phis given names).2.1 := by
  induction phis generalizing given names with
  | nil => exact ⟨rfl, .refl⟩
  | cons phi rest restIH =>
    obtain ⟨named, grown⟩ := restIH (given.push phi.var (names.fresh phi.var).1)
      (names.fresh phi.var).2
    rw [NameStacks.tops_push] at named
    rw [namePhis, pushPhis]
    dsimp only
    rw [named]
    exact ⟨rfl, grown.push⟩

/-- Instructions are renamed alike, and the stacks grow by the names of what they write. -/
theorem pushInstrs_spec (instrs : List Instr) (given : NameStacks) (names : NameSupply) :
    renameInstrs instrs given.tops names = ((pushInstrs instrs given names).1,
      (pushInstrs instrs given names).2.1.tops, (pushInstrs instrs given names).2.2.2) ∧
    Grown given (pushInstrs instrs given names).2.2.1 (pushInstrs instrs given names).2.1 := by
  induction instrs generalizing given names with
  | nil => exact ⟨rfl, .refl⟩
  | cons instr rest restIH =>
    have sameArgs : (fun arg => given.tops.getD arg arg) = fun arg => (given.top? arg).getD arg := by
      funext arg
      rw [SortedMap.getD, NameStacks.get?_tops]
    rw [renameInstrs, pushInstrs, sameArgs]
    generalize instr.mapArgs (fun arg => (given.top? arg).getD arg) = image
    cases image.dest? with
    | some dest =>
      obtain ⟨renamed, grown⟩ := restIH (given.push dest (names.fresh dest).1) (names.fresh dest).2
      rw [NameStacks.tops_push] at renamed
      dsimp only
      rw [renamed]
      exact ⟨rfl, grown.push⟩
    | none =>
      obtain ⟨renamed, grown⟩ := restIH given names
      dsimp only
      rw [renamed]
      exact ⟨rfl, grown⟩

/-- A block is renamed alike, and the stacks grow by the names that it gives. -/
theorem enterBlock_spec (name : String) (given : NameStacks) (state : Renaming) :
    (∃ error, renameBlock name given.tops state = .error error ∧
      enterBlock name given state = .error error) ∨
    ∃ after pushed renamed, renameBlock name given.tops state = .ok (after.tops, renamed) ∧
      enterBlock name given state = .ok (after, pushed, renamed) ∧ Grown given pushed after := by
  obtain ⟨named, grownByPhis⟩ := pushPhis_spec (state.phis.getD name []) given state.names
  rw [renameBlock, enterBlock]
  dsimp only
  rw [named]
  dsimp only
  cases found : state.graph.block name with
  | error error => exact .inl ⟨error, rfl, rfl⟩
  | ok block =>
    rw [Attempt.ok_bind, Attempt.ok_bind]
    obtain ⟨renamed, grownByInstrs⟩ := pushInstrs_spec block.instrs
      (pushPhis (state.phis.getD name []) given state.names).2.1
      (pushPhis (state.phis.getD name []) given state.names).2.2.2
    rw [renamed]
    dsimp only
    generalize FlowGraph.freshKeys _ _ = attempt
    cases attempt with
    | error error => exact .inl ⟨error, rfl, rfl⟩
    | ok keyed => exact .inr ⟨_, _, _, rfl, rfl, grownByPhis.trans grownByInstrs⟩

/-! ## The walk -/

/-- What is still to be done. -/
inductive Frame where
  /-- A tree is to be entered. -/
  | enter (tree : Dominance.Tree)
  /-- A tree whose first block gave names to some variables is to be left. -/
  | leave (pushed : List String)

/-- How many frames are taken because of one: each block of a tree is entered and left. -/
def Frame.weight : Frame → Nat
  | .enter tree => 2 * tree.preorder.length
  | .leave _ => 1

/-- Trees to be entered one after the other. -/
def Frame.enterAll (trees : List Dominance.Tree) : List Frame := trees.map .enter

/-- Entering trees takes two frames a block. -/
theorem Frame.sum_weight_enterAll (trees : List Dominance.Tree) :
    ((enterAll trees).map weight).sum = 2 * (Dominance.Tree.preorderAll trees).length := by
  induction trees with
  | nil => rfl
  | cons tree rest restIH =>
    rw [enterAll, List.map_cons, List.map_cons, List.sum_cons, ← enterAll, restIH,
      Dominance.Tree.preorderAll, List.length_append, weight]
    omega

/-- Takes frames until none is left. The names that a block gives are taken back when its tree is
left. -/
def walkFrames (frames : List Frame) (given : NameStacks) (state : Renaming) : Except Error Renaming :=
  match frames with
  | [] => .ok state
  | .leave pushed :: rest => walkFrames rest (given.popAll pushed) state
  | .enter (.node name children) :: rest => do
    let (given, pushed, state) ← enterBlock name given state
    walkFrames (Frame.enterAll children ++ .leave pushed :: rest) given state
termination_by (frames.map Frame.weight).sum
decreasing_by
  · simp [Frame.weight]
  · simp only [List.map_append, List.map_cons, List.sum_append, List.sum_cons, Frame.weight,
      Dominance.Tree.preorder, List.length_cons, Frame.sum_weight_enterAll]
    omega

mutual

/-- To enter a tree is to rename it with the names in force, and to go on with stacks that hold what they
held. -/
theorem walkFrames_enter (tree : Dominance.Tree) (rest : List Frame) (given : NameStacks)
    (state : Renaming) :
    (∃ error, renameTree tree given.tops state = .error error ∧
      walkFrames (.enter tree :: rest) given state = .error error) ∨
    ∃ after renamed, renameTree tree given.tops state = .ok renamed ∧
      (∀ var, NameStacks.stack after var = given.stack var) ∧
      walkFrames (.enter tree :: rest) given state = walkFrames rest after renamed := by
  cases tree with
  | node name children =>
    rw [renameTree, walkFrames]
    rcases enterBlock_spec name given state with ⟨error, isError, failed⟩ |
      ⟨middle, pushed, renamed, isRenamed, entered, grown⟩
    · rw [isError, failed]
      exact .inl ⟨error, rfl, rfl⟩
    · rw [isRenamed, entered, Attempt.ok_bind, Attempt.ok_bind]
      dsimp only
      rcases walkFrames_enterAll children (.leave pushed :: rest) middle renamed with
        ⟨error, isError, failed⟩ | ⟨last, final, isFinal, same, walked⟩
      · exact .inl ⟨error, isError, failed⟩
      · -- The children leave the stacks as the block made them, and its own frame comes next.
        refine .inr ⟨last.popAll pushed, final, isFinal, grown.stack_popAll_eq same, ?_⟩
        rw [walked, walkFrames]

/-- To enter trees is to rename one after the other with the same names in force. -/
theorem walkFrames_enterAll (trees : List Dominance.Tree) (rest : List Frame) (given : NameStacks)
    (state : Renaming) :
    (∃ error, renameTrees trees given.tops state = .error error ∧
      walkFrames (Frame.enterAll trees ++ rest) given state = .error error) ∨
    ∃ after renamed, renameTrees trees given.tops state = .ok renamed ∧
      (∀ var, NameStacks.stack after var = given.stack var) ∧
      walkFrames (Frame.enterAll trees ++ rest) given state = walkFrames rest after renamed := by
  cases trees with
  | nil => exact .inr ⟨given, state, rfl, fun _ => rfl, rfl⟩
  | cons tree others =>
    rw [renameTrees, Frame.enterAll, List.map_cons, List.cons_append, ← Frame.enterAll]
    rcases walkFrames_enter tree (Frame.enterAll others ++ rest) given state with
      ⟨error, isError, failed⟩ | ⟨middle, renamed, isRenamed, same, walked⟩
    · rw [isError, failed]
      exact .inl ⟨error, rfl, rfl⟩
    · -- The next tree finds the same names in force as the first one did.
      rw [isRenamed, Attempt.ok_bind, walked, ← NameStacks.tops_congr same]
      rcases walkFrames_enterAll others rest middle renamed with failed |
        ⟨after, final, isFinal, sameAgain, walkedAgain⟩
      · exact .inl failed
      · exact .inr ⟨after, final, isFinal, fun var => (sameAgain var).trans (same var), walkedAgain⟩

end

/-- Renaming a tree with the names in force is a walk with frames and stacks of names. -/
theorem renameTree_eq_walkFrames (tree : Dominance.Tree) (given : NameStacks) (state : Renaming) :
    renameTree tree given.tops state = walkFrames [.enter tree] given state := by
  rcases walkFrames_enter tree [] given state with ⟨error, isError, failed⟩ |
    ⟨after, renamed, isRenamed, _, walked⟩
  · rw [isError, failed]
  · rw [isRenamed, walked, walkFrames]

/-- Parameters start with their own names in force. -/
theorem tops_params (names : List String) :
    NameStacks.tops (.ofList (names.map fun name => (name, [name]))) =
      .ofList (names.map fun name => (name, name)) := by
  refine SortedMap.ext fun var => ?_
  rw [NameStacks.get?_tops, NameStacks.top?, NameStacks.stack, SortedMap.getD, SortedMap.ofList,
    SortedMap.ofList, SortedMap.get?_insertAll, SortedMap.get?_insertAll, ← List.map_reverse,
    ← List.map_reverse, List.find?_map, List.find?_map]
  simp only [Function.comp_def]
  cases names.reverse.find? fun name => decide (name = var) <;> rfl

/-- Brings a flow graph into single assignment with one stack of names for each variable. -/
def constructByStacks (graph : FlowGraph) : Except Error (FlowGraph × Log) := do
  match graph.blocks.find? fun block => block.phiCount ≠ 0 with
  | some block =>
    throw (.malformed
      ("Block '" ++ block.name ++ "' of '" ++ graph.name ++ "' already contains phi nodes"))
  | none => pure ()
  if graph.blocks.isEmpty then return (graph, [])
  let (removed, graph) := graph.removeUnreachable
  let removals := removed.map fun block => event graph .blockRemoved block "unreachable"
  let dominance ← Dominance.ofFlowGraph graph
  let given : NameStacks := .ofList (graph.paramNames.map fun name => (name, [name]))
  let start : Renaming :=
    { graph, phis := placePhis graph dominance, names := .ofGraph graph }
  let state ← walkFrames [.enter dominance.tree] given start
  let (graph, insertions) ← insertPhis state.graph state.phis.toList
  return (graph, removals ++ state.log ++ insertions)

/-- The conversion gives the same with scopes as with stacks. -/
theorem construct_eq_constructByStacks (graph : FlowGraph) :
    construct graph = constructByStacks graph := by
  unfold constructByStacks
  simp only [← renameTree_eq_walkFrames, tops_params]
  rfl

end Ssa

end Midend
