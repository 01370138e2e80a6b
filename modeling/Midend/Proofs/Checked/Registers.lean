import Midend.Proofs.Checked.Destruct
import Midend.Proofs.Checked.Solver
import Midend.Proofs.Registers.Coalesce
import Midend.Proofs.Registers.Coloring
import Midend.Registers.Allocation

/-! # Checked register allocation

The variables that are live behind the instructions of a block are put into a table from the last one
to the first, each parameter is held against those after it, and the entry and the states of the
liveness analysis are looked up. Copies are merged as long as there is one to merge, and variables are
taken out of the interference as long as there is one: these loops end after as many steps as there are
copies and variables. All checks pass (`Checked.allocate?_eq`). -/

namespace Midend

namespace Checked

/-! ## Interference -/

section Interference

open Interference

/-- The live variables after each of a list of instructions, given those after the last one: a table
that is filled in from its end. -/
def afterEach? (instrs : List Instr) (live : SortedSet String) :
    Option (List (SortedSet String)) := do
  let filled ← instrs.zipIdx.reverse.foldlM
    (fun state entry => do
      let after ← put? state.2 entry.2 state.1
      return (Liveness.stepBack entry.1 state.1, after))
    (live, instrs.map fun _ => .empty)
  return filled.2

/-- Makes each of a list of variables a neighbour of those after it. -/
def addClique? (known : Interference) (nodes : List String) : Option Interference :=
  nodes.zipIdx.foldlM
    (fun known entry => do
      let later ← onward? nodes (entry.2 + 1)
      return (known.addNode entry.1).addEdges entry.1 later)
    known

/-- Adds the instructions of a block, given the variables live at its end. -/
def addBlock? (known : Interference) (block : Block) (live : SortedSet String) :
    Option Interference := do
  let after ← afterEach? block.instrs live
  return (block.instrs.zip after).foldl (fun known entry => known.addInstr entry.1 entry.2) known

/-- The interference of a flow graph whose live variables are known. -/
def interference? (graph : FlowGraph) (live : Solution (SortedSet String)) :
    Option Interference := do
  let params := graph.paramNames
  let clique ← addClique? {} params
  let entry ← graph.blocks[0]?
  let atEntry := (← stateAt? live live.before entry.name).getD .empty
  let start := params.foldl (fun known param => known.addEdges param atEntry.toList) clique
  graph.blocks.foldlM
    (fun known block => do
      addBlock? known block ((← stateAt? live live.after block.name).getD .empty))
    start

/-- The checks on the table of live variables pass. -/
theorem afterEach?_eq (instrs : List Instr) (live : SortedSet String) :
    afterEach? instrs live = some (Liveness.afterEach instrs live) := by
  -- The rows in front of those that are filled in stay.
  have fills : ∀ (instrs : List Instr) (front : List (SortedSet String)),
      (instrs.zipIdx front.length).reverse.foldlM
        (fun state entry => do
          let after ← put? state.2 entry.2 state.1
          return (Liveness.stepBack entry.1 state.1, after))
        (live, front ++ instrs.map fun _ => .empty) =
      some (Liveness.stepBackAll instrs live, front ++ Liveness.afterEach instrs live) := by
    intro instrs
    induction instrs with
    | nil => exact fun _ => rfl
    | cons instr rest restIH =>
      intro front
      have later := restIH (front ++ [.empty])
      rw [List.length_append, List.length_singleton, List.append_assoc, List.append_assoc] at later
      rw [List.zipIdx_cons, List.reverse_cons, List.foldlM_append]
      refine (congrArg (· >>= _) later).trans ?_
      rw [some_bind, List.foldlM_cons, put?_eq (by simp), some_bind, List.set_append_right _ _ le_rfl,
        Nat.sub_self]
      rfl
  have passes := fills instrs []
  rw [List.length_nil, List.nil_append, List.nil_append] at passes
  rw [afterEach?, passes]
  rfl

/-- The checks on the neighbours among some variables pass. -/
theorem addClique?_eq (known : Interference) (nodes : List String) :
    addClique? known nodes = some (known.addClique nodes) := by
  suffices later : ∀ (rest front : List String) (known : Interference), nodes = front ++ rest →
      (rest.zipIdx front.length).foldlM
        (fun known entry => do
          let later ← onward? nodes (entry.2 + 1)
          return (known.addNode entry.1).addEdges entry.1 later)
        known = some (known.addClique rest) from later nodes [] known rfl
  intro rest
  induction rest with
  | nil => exact fun _ _ _ => rfl
  | cons node rest restIH =>
    intro front known split
    have inside : front.length + 1 ≤ nodes.length := by
      rw [split, List.length_append, List.length_cons]
      omega
    have others : nodes.drop (front.length + 1) = rest := by
      rw [split, ← List.drop_drop, List.drop_left]
      rfl
    have onward := restIH (front ++ [node]) ((known.addNode node).addEdges node rest)
      (by rw [split, List.append_assoc]; rfl)
    rw [List.length_append, List.length_singleton] at onward
    rw [List.zipIdx_cons, List.foldlM_cons, onward?_eq inside, some_bind, others]
    exact onward

/-- The checks on the interference of a block pass. -/
theorem addBlock?_eq (known : Interference) (block : Block) (live : SortedSet String) :
    addBlock? known block live = some (known.addBlock block live) := by
  rw [addBlock?, afterEach?_eq]
  rfl

/-- The checks on the interference of a flow graph pass. -/
theorem interference?_eq {graph : FlowGraph} (nonempty : graph.blocks ≠ []) {visits : Nat}
    {live : Solution (SortedSet String)} (solved : Liveness.analysis.solve graph visits = .ok live) :
    interference? graph live = some (.ofLiveness graph live) := by
  have states := stateAt?_eq solved
  obtain ⟨entry, rest, isBlocks⟩ := List.exists_cons_of_ne_nil nonempty
  have isEntry : graph.blocks[0]? = some entry := by rw [isBlocks]; rfl
  rw [interference?, addClique?_eq, some_bind, isEntry, some_bind, (states entry.name).1, some_bind,
    ofLiveness, isBlocks]
  refine (foldlM_eq_some (fun _ => True) trivial fun known _ block _ => ⟨?_, trivial⟩).1
  rw [(states block.name).2, some_bind, addBlock?_eq]

end Interference

/-! ## Coalescing -/

section Coalescing

open Coalescing

/-- Merges the sides of copies until no copy allows it, `budget` times at most; answers the merges
in order. -/
def mergeCopies? : (budget : Nat) → FlowGraph → Interference →
    Option (FlowGraph × Interference × List (String × String))
  | 0, graph, known =>
    if (nextMerge? graph known).isNone then some (graph, known, []) else none
  | budget + 1, graph, known =>
    match nextMerge? graph known with
    | none => some (graph, known, [])
    | some (old, new) => do
      let (graph, known, merges) ←
        mergeCopies? budget (rename graph old new) (known.merge old new)
      return (graph, known, (old, new) :: merges)

/-- Whether an instruction copies a variable to itself. -/
def isSelfCopy? (instr : Instr) : Option Bool :=
  if instr.op? = some .id ∧ instr.args.length = 1 then do
    let source ← instr.args[0]?
    return decide (instr.dest? = some source)
  else some false

/-- Merges the sides of copies and removes the copies that this makes superfluous. -/
def coalesce? (graph : FlowGraph) (known : Interference) :
    Option (FlowGraph × Interference × Log) := do
  let (graph, known, merges) ← mergeCopies? graph.instructionCount graph known
  let log := merges.map fun (old, new) =>
    { kind := .copyCoalesced, function := some graph.name, pass := some "regalloc",
      message := old ++ " -> " ++ new }
  let blocks ← graph.blocks.mapM fun block => do
    let instrs ← block.instrs.filterM fun instr => (isSelfCopy? instr).map (!·)
    return { block with instrs }
  return ({ graph with blocks }, known, log)

/-- The checks on merging copies pass if there are no more copies than steps. -/
theorem mergeCopies?_eq {budget : Nat} {graph : FlowGraph} (known : Interference)
    (enough : copyCount graph ≤ budget) :
    mergeCopies? budget graph known = some (mergeCopies budget graph known) := by
  induction budget generalizing graph known with
  | zero =>
    rw [mergeCopies?]
    cases next : nextMerge? graph known with
    | none => rfl
    | some merge =>
      have fewer := copyCount_rename_lt next
      omega
  | succ budget budgetIH =>
    rw [mergeCopies?, mergeCopies]
    cases next : nextMerge? graph known with
    | none => rfl
    | some merge =>
      -- The copy whose sides were merged is proper no longer.
      have fewer := copyCount_rename_lt next
      dsimp only
      rw [budgetIH _ (by omega)]
      rfl

/-- The check on a copy passes: it looks at the first argument if there is one. -/
theorem isSelfCopy?_eq (instr : Instr) : isSelfCopy? instr = some (isSelfCopy instr) := by
  obtain ⟨action, pos, key⟩ := instr
  cases action with
  | compute op dest ty operands =>
    obtain ⟨args, funcs, labels⟩ := operands
    cases op <;> first
      | rfl
      | rcases args with _ | ⟨source, _ | ⟨second, rest⟩⟩ <;> first
        | rfl
        | exact congrArg some (decide_eq_decide.2 Option.some_inj)
  | effect op operands =>
    obtain ⟨args, funcs, labels⟩ := operands
    cases op <;> first
      | rfl
      | rcases args with _ | ⟨source, _ | ⟨second, rest⟩⟩ <;> rfl
  | _ => rfl

/-- The checks on coalescing pass. -/
theorem coalesce?_eq (graph : FlowGraph) (known : Interference) :
    coalesce? graph known = some (Coalescing.run graph known) := by
  have enough : copyCount graph ≤ graph.instructionCount := List.countP_le_length
  have kept : ∀ block : Block, (do
      let instrs ← block.instrs.filterM fun instr => (isSelfCopy? instr).map (!·)
      return { block with instrs } : Option Block) =
        some { block with instrs := block.instrs.filter fun instr => !isSelfCopy instr } := by
    intro block
    rw [filterM_eq_some fun instr _ => by rw [isSelfCopy?_eq, Option.map_some]]
    rfl
  rw [coalesce?, mergeCopies?_eq known enough, some_bind, Coalescing.run]
  dsimp only
  rw [mapM_eq_some fun block _ => kept block]
  rfl

end Coalescing

/-! ## Coloring -/

section Coloring

open Coloring

/-- Takes out variables of degree below a bound, `budget` of them at most; answers them, the last
one first, or else the variables that are left. -/
def simplifyFrom? (bound : Nat) : (budget : Nat) → Interference → (taken : List String) →
    Option (Except (List String) (List String))
  | 0, known, taken => if known.isEmpty then some (.ok taken) else none
  | budget + 1, known, taken =>
    if known.isEmpty then some (.ok taken)
    else
      match pick? known bound with
      | some node => simplifyFrom? bound budget (known.removeNode node) (node :: taken)
      | none => some (.error known.nodes)

/-- Gives every variable a register, or fails with variables that get none. -/
def coloring? (known : Interference) (registers : List String) :
    Option (Except (List String) Coloring) := do
  match ← simplifyFrom? registers.length known.size known [] with
  | .ok order => return assign known registers order .empty
  | .error remaining => return .error remaining

/-- The checks on the order of variables pass if there are no more variables than steps. -/
theorem simplifyFrom?_eq (bound : Nat) {budget : Nat} {known : Interference} (taken : List String)
    (enough : known.size ≤ budget) :
    simplifyFrom? bound budget known taken = some (simplifyFrom bound budget known taken) := by
  induction budget generalizing known taken with
  | zero =>
    have empty : known.isEmpty = true :=
      List.isEmpty_iff_length_eq_zero.2 (Nat.le_zero.1 enough)
    rw [simplifyFrom?, simplifyFrom, if_pos empty, if_pos empty]
  | succ budget budgetIH =>
    rw [simplifyFrom?, simplifyFrom]
    split
    · rfl
    · cases picked : pick? known bound with
      | none => rfl
      | some node =>
        have fewer := Interference.size_removeNode_lt (pick?_eq_some picked).1
        exact budgetIH _ (by omega)

/-- The checks on a coloring pass. -/
theorem coloring?_eq (known : Interference) (registers : List String) :
    coloring? known registers = some (Coloring.ofInterference known registers) := by
  rw [coloring?, simplifyFrom?_eq _ _ le_rfl, some_bind, ofInterference, simplify]
  cases simplifyFrom registers.length known.size known [] <;> rfl

end Coloring

/-! ## Functions and programs -/

section Functions

open Allocation

/-- The flow graph of a function, its merges turned into copies. -/
def withoutPhis? (function : Func) : Checked Indexed := do
  let indexed := (← Indexed.build? function).1
  if indexed.graph.blocks.any fun block => block.phiCount ≠ 0 then
    return (← destruct? indexed).1
  else return indexed

/-- The interference of a flow graph. -/
def interferenceOf? (indexed : Indexed) : Checked Interference := do
  ofOption (interference? indexed.graph (← solve? Liveness.analysis indexed))

/-- Gives the variables of a function registers. -/
def allocateFunc? (registers : List String) (function : Func) : Checked AllocatedFunc := do
  let indexed ← withoutPhis? function
  let (graph, interference, log) ←
    ofOption (coalesce? indexed.graph (← interferenceOf? indexed))
  let coloring := match ← ofOption (coloring? interference registers) with
    | .ok coloring => .ok coloring
    | .error remaining => .error (.allocationFailed function.name remaining)
  return { function := ← ofExcept graph.flatten, interference, coloring, log }

/-- Gives the variables of every function of a program registers. -/
def allocate? (registers : List String) (program : Program) : Checked Allocation := do
  ofExcept program.checkLinkage
  let start : Allocation := { program := {}, colorings := .empty, errors := [], log := [] }
  program.functions.foldlM
    (fun allocation function => do
      ofExcept (allocation.add function (← attempt (allocateFunc? registers function))))
    start

variable {function : Func} {graph : FlowGraph}

/-- The flow graph that is allocated has blocks with names of their own. -/
theorem names_of_withoutPhis (lowered : withoutPhis function = .ok graph) :
    graph.names.Nodup ∧ graph.names ≠ [] := by
  obtain ⟨built, isGraph, lowered⟩ := Attempt.bind_eq_ok.1 lowered
  obtain ⟨⟨start, log⟩, isBuilt, same⟩ := Attempt.bind_eq_ok.1 isGraph
  obtain rfl : start = built := Except.ok.inj same
  obtain ⟨nodup, nonempty⟩ := FlowGraph.names_of_build isBuilt
  split at lowered
  · obtain ⟨split, isSplit, same⟩ := Attempt.bind_eq_ok.1 lowered
    obtain rfl := Except.ok.inj same
    obtain ⟨kept, still⟩ := names_destruct nodup isSplit
    exact ⟨kept, still nonempty⟩
  · obtain rfl := Except.ok.inj lowered
    exact ⟨nodup, nonempty⟩

/-- The checks on the flow graph of a function without merges pass. -/
theorem withoutPhis?_eq (function : Func) :
    withoutPhis? function = ofExcept ((withoutPhis function).map .of) := by
  rw [withoutPhis?, withoutPhis, FlowGraph.ofFunc, build?_eq]
  cases built : FlowGraph.build function with
  | error error => rfl
  | ok answer =>
    obtain ⟨graph, log⟩ := answer
    have nodup := FlowGraph.nodup_names_of_build built
    by_cases merges : (graph.blocks.any fun block => decide (block.phiCount ≠ 0)) = true
    · refine (if_pos merges).trans ?_
      rw [Attempt.ok_bind, Attempt.pure_eq_ok, Attempt.ok_bind, if_pos merges, destruct?_eq nodup]
      cases Ssa.destruct graph <;> rfl
    · refine (if_neg merges).trans ?_
      rw [Attempt.ok_bind, Attempt.pure_eq_ok, Attempt.ok_bind, if_neg merges]
      rfl

/-- The checks on the allocation of a function pass. -/
theorem allocateFunc?_eq (registers : List String) (function : Func) :
    allocateFunc? registers function = ofExcept (ofFunc registers function) := by
  rw [allocateFunc?, ofFunc, withoutPhis?_eq]
  cases lowered : withoutPhis function with
  | error error => rfl
  | ok graph =>
    obtain ⟨nodup, nonempty⟩ := names_of_withoutPhis lowered
    show interferenceOf? (.of graph) >>= _ = ofExcept (interferenceOf graph >>= _)
    have known : interferenceOf? (.of graph) = ofExcept (interferenceOf graph) := by
      rw [interferenceOf?, interferenceOf, solve?_eq _ nodup]
      refine bind_eq rfl fun live solved => ?_
      rw [Indexed.graph_of, interference?_eq (mt List.map_eq_nil_iff.2 nonempty) solved]
      rfl
    refine bind_eq known fun interference _ => ?_
    rw [Indexed.graph_of, coalesce?_eq, ofOption_some, ofExcept_ok_bind]
    dsimp only
    rw [coloring?_eq, ofOption_some, ofExcept_ok_bind]
    exact bind_eq rfl fun _ _ => rfl

/-- The checks on the allocation of a program pass. -/
theorem allocate?_eq (registers : List String) (program : Program) :
    allocate? registers program = ofExcept (ofProgram registers program) := by
  rw [allocate?, ofProgram]
  refine bind_eq rfl fun _ _ => foldlM_eq fun allocation function _ => ?_
  rw [attempt_eq (allocateFunc?_eq registers function)]
  rfl

end Functions

end Checked

end Midend
