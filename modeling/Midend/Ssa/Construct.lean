import Midend.Dominance.Basic
import Midend.FlowGraph.Edit

/-! # Into single assignment

After the conversion every variable is written by one instruction. Merges are placed on the iterated
dominance frontiers of the blocks that write a variable; a walk down the dominator tree then gives
each write a name of its own and each read the name in force. A merge that is reached without a
value gets an undefined one. -/

namespace Midend

namespace Ssa

/-- The name of the conversion in events. -/
def passName : String := "ssa"

/-- An event of the conversion. -/
def event (graph : FlowGraph) (kind : Event.Kind) (block message : String) : Event :=
  { kind, function := some graph.name, block := some block, pass := some passName, message }

/-! ## Placement of merges -/

/-- The writes of a flow graph, parameters first: variable, type and block. -/
def writes (graph : FlowGraph) : List (String × Ty × String) :=
  let entry := match graph.blocks with
    | first :: _ => first.name
    | [] => ""
  (graph.params.map fun param => (param.name, param.ty, entry)) ++
    graph.blocks.flatMap fun block =>
      block.instrs.filterMap fun instr =>
        match instr.dest?, instr.ty? with
        | some dest, some ty => some (dest, ty, block.name)
        | _, _ => none

/-- The blocks that write each variable. -/
def definingBlocks (graph : FlowGraph) : SortedMap String (SortedSet String) :=
  (writes graph).foldl
    (fun blocks (var, _, block) => blocks.alter var fun known => (known.getD .empty).insert block)
    .empty

/-- The type of each variable: that of its first write. -/
def variableTypes (graph : FlowGraph) : SortedMap String Ty :=
  (writes graph).foldl (fun types (var, ty, _) => types.insertIfNew var ty) .empty

/-- Follows the frontiers of the blocks on a worklist, last one first; every block found is placed
once, and followed in turn unless it is a defining block. -/
def placeFrom (frontier : String → List String) (defining : SortedSet String) :
    (budget : Nat) → List String → SortedSet String → SortedSet String
  | 0, _, placed => placed
  | _ + 1, [], placed => placed
  | budget + 1, block :: worklist, placed =>
    let found := (frontier block).filter fun name => !placed.contains name
    let onward := found.filter fun name => !defining.contains name
    placeFrom frontier defining budget (onward.reverse ++ worklist) (found.foldl .insert placed)

/-- The blocks where a variable with the given defining blocks needs a merge: their iterated
dominance frontier. A block is followed once at most, which bounds the steps. -/
def phiBlocks (dominance : Dominance) (frontiers : SortedMap String (List String))
    (defining : SortedSet String) : SortedSet String :=
  let worklist := defining.toList.reverse.filter dominance.contains
  placeFrom (fun block => frontiers.getD block []) defining
    (worklist.length + dominance.names.length) worklist .empty

/-- The frontier of every reachable block. -/
def frontierTable (dominance : Dominance) : SortedMap String (List String) :=
  .ofList (dominance.blocks.map fun block => (block, dominance.frontier block))

/-- A merge to be inserted. -/
structure PendingPhi where
  /-- The variable that it merges. -/
  var : String
  /-- Its type. -/
  ty : Ty
  /-- The name of its result. -/
  dest : String := ""
  /-- The values it selects from, with the blocks they come from. -/
  incoming : List (String × String) := []
  deriving DecidableEq, Repr

/-- The merges of each block, ordered by variable. -/
abbrev PendingPhis := SortedMap String (List PendingPhi)

/-- The merges that a flow graph needs. -/
def placePhis (graph : FlowGraph) (dominance : Dominance) : PendingPhis :=
  let types := variableTypes graph
  let frontiers := frontierTable dominance
  (definingBlocks graph).foldl
    (fun phis var defining =>
      match types.get? var with
      | some ty =>
        (phiBlocks dominance frontiers defining).toList.foldl
          (fun phis block => phis.alter block fun known => known.getD [] ++ [{ var, ty }]) phis
      | none => phis)
    .empty

/-! ## Renaming -/

/-- The name in force for each variable that has one. -/
abbrev Scope := SortedMap String String

/-- What the walk down the dominator tree changes. -/
structure Renaming where
  /-- The code. -/
  graph : FlowGraph
  /-- The merges to be inserted. -/
  phis : PendingPhis
  /-- The supply of names. -/
  names : NameSupply
  /-- What was reported so far. -/
  log : Log := []

/-- Names the results of merges. -/
def namePhis : List PendingPhi → Scope → NameSupply → List PendingPhi × Scope × NameSupply
  | [], scope, names => ([], scope, names)
  | phi :: rest, scope, names =>
    let (dest, names) := names.fresh phi.var
    let (rest, scope, names) := namePhis rest (scope.insert phi.var dest) names
    ({ phi with dest } :: rest, scope, names)

/-- Renames the reads and writes of instructions in order. -/
def renameInstrs : List Instr → Scope → NameSupply → List Instr × Scope × NameSupply
  | [], scope, names => ([], scope, names)
  | instr :: rest, scope, names =>
    let instr := instr.mapArgs fun arg => scope.getD arg arg
    match instr.dest? with
    | some dest =>
      let (name, names) := names.fresh dest
      let (rest, scope, names) := renameInstrs rest (scope.insert dest name) names
      (instr.mapDest (fun _ => name) :: rest, scope, names)
    | none =>
      let (rest, scope, names) := renameInstrs rest scope names
      (instr :: rest, scope, names)

/-- The undefined values that the end of a block needs: by variable, and as instructions. -/
structure Undefs where
  /-- The undefined value of each variable that has one. -/
  byVar : SortedMap String String := .empty
  /-- The instructions that make them, in order. -/
  instrs : List Instr := []

/-- The name of a variable at the end of a block; a variable without a value gets an undefined
one. -/
def valueAtEnd (scope : Scope) (phi : PendingPhi) (undefs : Undefs) (names : NameSupply) :
    String × Undefs × NameSupply :=
  match scope.get? phi.var, undefs.byVar.get? phi.var with
  | some name, _ => (name, undefs, names)
  | none, some name => (name, undefs, names)
  | none, none =>
    let (name, names) := names.fresh (phi.var ++ ".undef")
    (name, ⟨undefs.byVar.insert phi.var name, undefs.instrs ++ [Instr.undef name phi.ty]⟩, names)

/-- Gives the merges of one successor the values that a block has at its end. -/
def fillPhis (block : String) (scope : Scope) :
    List PendingPhi → Undefs → NameSupply → List PendingPhi × Undefs × NameSupply
  | [], undefs, names => ([], undefs, names)
  | phi :: rest, undefs, names =>
    let (value, undefs, names) := valueAtEnd scope phi undefs names
    let (rest, undefs, names) := fillPhis block scope rest undefs names
    ({ phi with incoming := phi.incoming ++ [(block, value)] } :: rest, undefs, names)

/-- Gives the merges of the successors the values that a block has at its end. -/
def fillSuccessors (block : String) (scope : Scope) :
    List String → PendingPhis → Undefs → NameSupply → PendingPhis × Undefs × NameSupply
  | [], phis, undefs, names => (phis, undefs, names)
  | successor :: rest, phis, undefs, names =>
    match phis.get? successor with
    | some pending =>
      let (pending, undefs, names) := fillPhis block scope pending undefs names
      fillSuccessors block scope rest (phis.insert successor pending) undefs names
    | none => fillSuccessors block scope rest phis undefs names

/-- Renames one block and gives its successors their values; answers the names in force at its
end. -/
def renameBlock (name : String) (scope : Scope) (state : Renaming) :
    Except Error (Scope × Renaming) := do
  let pending := state.phis.getD name []
  let (pending, scope, names) := namePhis pending scope state.names
  let phis := if pending.isEmpty then state.phis else state.phis.insert name pending
  let block ← state.graph.block name
  let (instrs, scope, names) := renameInstrs block.instrs scope names
  let graph := state.graph.modifyBlock name fun block => { block with instrs }
  let (phis, undefs, names) :=
    fillSuccessors name scope (graph.successorsOf name) phis {} names
  let (keyed, graph) ← graph.freshKeys undefs.instrs
  let graph := graph.modifyBlock name fun block => block.insertAt block.insertionPoint keyed
  let reports := keyed.filterMap fun instr => instr.dest?.map (event graph .undefInserted name)
  return (scope, { graph, phis, names, log := state.log ++ reports })

mutual

/-- Renames the blocks of a dominator tree. What a block puts in force holds in the trees below it
and nowhere else. -/
def renameTree : Dominance.Tree → Scope → Renaming → Except Error Renaming
  | .node name children, scope, state => do
    let (scope, state) ← renameBlock name scope state
    renameTrees children scope state

/-- Renames the blocks of several trees that start with the same names in force. -/
def renameTrees : List Dominance.Tree → Scope → Renaming → Except Error Renaming
  | [], _, state => .ok state
  | tree :: rest, scope, state => do
    let state ← renameTree tree scope state
    renameTrees rest scope state

end

/-! ## Conversion -/

/-- Puts the merges at the front of their blocks, in the order of block names. -/
def insertPhis (graph : FlowGraph) :
    List (String × List PendingPhi) → Except Error (FlowGraph × Log)
  | [] => .ok (graph, [])
  | (name, phis) :: rest => do
    let instrs := phis.map fun phi =>
      Instr.phi phi.dest phi.ty (phi.incoming.map Prod.snd) (phi.incoming.map Prod.fst)
    let reports := phis.map fun phi =>
      event graph .phiInserted name (phi.dest ++ " for " ++ phi.var)
    let (keyed, graph) ← graph.freshKeys instrs
    let graph := graph.modifyBlock name fun block => block.insertAt 0 keyed
    let (graph, log) ← insertPhis graph rest
    return (graph, reports ++ log)

/-- Converts a flow graph without leading merges into single assignment; unreachable blocks are
removed. -/
def construct (graph : FlowGraph) : Except Error (FlowGraph × Log) := do
  match graph.blocks.find? fun block => block.phiCount ≠ 0 with
  | some block =>
    throw (.malformed
      ("Block '" ++ block.name ++ "' of '" ++ graph.name ++ "' already contains phi nodes"))
  | none => pure ()
  if graph.blocks.isEmpty then return (graph, [])
  let (removed, graph) := graph.removeUnreachable
  let removals := removed.map fun block => event graph .blockRemoved block "unreachable"
  let dominance ← Dominance.ofFlowGraph graph
  let scope : Scope := .ofList (graph.paramNames.map fun name => (name, name))
  let start : Renaming :=
    { graph, phis := placePhis graph dominance, names := .ofGraph graph }
  let state ← renameTree dominance.tree scope start
  let (graph, insertions) ← insertPhis state.graph state.phis.toList
  return (graph, removals ++ state.log ++ insertions)

end Ssa

end Midend
