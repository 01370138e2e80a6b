import Midend.Proofs.Checked.FlowGraph
import Midend.Proofs.Checked.Numbering
import Midend.Proofs.Typing.Merges
import Midend.Proofs.Values.Names

/-! # Checked value numbering

Local numbering takes the instructions of a block apart at each place in turn; global numbering cuts
the merges off the front of a block, puts those that are left back, and numbers what follows them.
The parts are within the block, and blocks are found by the names of the dominator tree, so all checks
pass (`Checked.localNumbering?_eq`, `Checked.globalNumbering?_eq`). -/

namespace Midend

namespace Checked

/-! ## Local numbering -/

section Local

open LocalNumbering

/-- Numbers the instructions at the given places of a block in order. -/
def numberInstrs? (place : Place) :
    (indices : List Nat) → List Instr → LocalNumbering.State →
      Option (List Instr × LocalNumbering.State × Log)
  | [], instrs, state => some (instrs, state, [])
  | index :: indices, instrs, state => do
    let head ← upTo? instrs (index + 1)
    let tail ← onward? instrs (index + 1)
    let instr ← head[index]?
    if instr.isPhi then
      let table ← instr.dest?.toList.foldlM define? state.table
      numberInstrs? place indices instrs { state with table }
    else
      let instr := instr.mapArgs fun arg => state.renamed.getD arg arg
      let (instr, state, reports) := renameWrite place instr tail state
      let (instr, table, changes) ← numberInstr? place state.table instr
      let head ← put? head index instr
      let (instrs, state, log) ← numberInstrs? place indices (head ++ tail) { state with table }
      return (instrs, state, reports ++ changes ++ log)

/-- Numbers blocks one after another, each with a table of its own. -/
def numberBlocks? (function : String) :
    List Block → NameSupply → Option (List Block × NameSupply × Log)
  | [], names => some ([], names, [])
  | block :: rest, names => do
    let place : Place := ⟨function, block.name, passName⟩
    let (instrs, state, log) ←
      numberInstrs? place (List.range block.instrs.length) block.instrs { names }
    let (rest, names, more) ← numberBlocks? function rest state.names
    return ({ block with instrs } :: rest, names, log ++ more)

/-- Numbers the blocks of a flow graph; the reports say what was changed. -/
def localNumbering? (indexed : Indexed) : Option (Indexed × Log) := do
  let graph := indexed.graph
  let (blocks, _, log) ← numberBlocks? graph.name graph.blocks (.ofGraph graph)
  return ({ indexed with graph := { graph with blocks } }, log)

/-- The checks on numbering what comes after the instructions that are done pass. -/
theorem numberInstrs?_eq (place : Place) (done rest : List Instr) (state : LocalNumbering.State) :
    numberInstrs? place (List.range' done.length rest.length) (done ++ rest) state =
      some (done ++ (numberInstrs place rest state).1, (numberInstrs place rest state).2) := by
  induction rest generalizing done state with
  | nil => rfl
  | cons instr rest restIH =>
    have regroup : ∀ instr : Instr, done ++ instr :: rest = (done ++ [instr]) ++ rest := by simp
    have inside : done.length + 1 ≤ (done ++ instr :: rest).length := by simp
    have isHead : (done ++ instr :: rest).take (done.length + 1) = done ++ [instr] := by
      rw [regroup]
      exact List.take_left' (by simp)
    have isTail : (done ++ instr :: rest).drop (done.length + 1) = rest := by
      rw [regroup]
      exact List.drop_left' (by simp)
    -- The instruction that was numbered is done, whatever became of it.
    have onward : ∀ (instr : Instr) state,
        numberInstrs? place (List.range' (done.length + 1) rest.length) (done ++ instr :: rest) state =
          some (done ++ instr :: (numberInstrs place rest state).1,
            (numberInstrs place rest state).2) := by
      intro instr state
      have := restIH (done ++ [instr]) state
      simpa using this
    rw [List.length_cons, List.range'_succ, numberInstrs?, upTo?_eq inside, some_bind,
      onward?_eq inside, some_bind, isHead, isTail, List.getElem?_concat_length, some_bind,
      numberInstrs]
    split
    · rw [foldlM_define?, some_bind, onward]
    · dsimp only
      generalize renameWrite place _ rest state = written
      obtain ⟨instr, state, reports⟩ := written
      show numberInstr? place state.table instr >>= _ = _
      rw [numberInstr?_eq, some_bind]
      show put? (done ++ [_]) done.length _ >>= _ = _
      rw [put?_eq (by simp), some_bind, List.set_append_right _ _ le_rfl, Nat.sub_self,
        List.set_cons_zero, ← regroup, onward]
      rfl

/-- The checks on numbering blocks pass. -/
theorem numberBlocks?_eq (function : String) (blocks : List Block) (names : NameSupply) :
    numberBlocks? function blocks names = some (numberBlocks function blocks names) := by
  induction blocks generalizing names with
  | nil => rfl
  | cons block rest restIH =>
    have passes := numberInstrs?_eq ⟨function, block.name, passName⟩ [] block.instrs { names }
    rw [List.nil_append, List.length_nil, ← List.range_eq_range', List.nil_append] at passes
    rw [numberBlocks?, passes, some_bind]
    dsimp only
    rw [restIH]
    rfl

/-- The checks on local numbering pass. -/
theorem localNumbering?_eq (graph : FlowGraph) :
    localNumbering? (.of graph) = some (.of (run graph).1, (run graph).2) := by
  rw [localNumbering?]
  dsimp only [Indexed.graph_of]
  rw [numberBlocks?_eq, some_bind]
  exact congrArg (fun indexed => some (indexed, (run graph).2))
    (of_eq_of_names (modest_run graph).names_eq)

end Local

/-! ## Global numbering -/

section Global

open GlobalNumbering

/-- Numbers a merge. -/
def numberPhi? (place : Place) (table : ValueTable) (instr : Instr) :
    Option (Instr × ValueTable × Log) :=
  match instr.action with
  | .compute _ dest ty operands =>
    match operands.args.mapM table.numberOf? with
    | none => do return (instr, ← define? table dest, [])
    | some numbers =>
      let expr := Expr.ofPhi place.block (operands.labels.zip numbers)
      match simplify? table dest ty numbers expr with
      | some simplified =>
        some ({ instr with action := simplified.action }, table.bind dest simplified.number,
          [place.report .phiSimplified (dest ++ " = " ++ simplified.text)])
      | none => do
        let (number, table) ← push? table expr dest none
        return (instr, table.bind dest number, [])
  | _ => some (instr, table, [])

/-- Numbers instructions in order with a given step. -/
def numberAll? (step? : ValueTable → Instr → Option (Instr × ValueTable × Log)) :
    List Instr → ValueTable → Option (List Instr × ValueTable × Log)
  | [], table => some ([], table, [])
  | instr :: rest, table => do
    let (instr, table, log) ← step? table instr
    let (rest, table, more) ← numberAll? step? rest table
    return (instr :: rest, table, log ++ more)

/-- Numbers a block: its merges, then what follows them. -/
def numberBlock? (place : Place) (table : ValueTable) (block : Block) :
    Option (Block × ValueTable × Log) := do
  let count := block.phiCount
  let phis ← upTo? block.instrs count
  let body ← onward? block.instrs count
  let (phis, table, simplifications) ← numberAll? (numberPhi? place) phis table
  let instrs := phis ++ body
  -- What became of merges is cut off, and put back behind those that are left.
  let (kept, replaced) := (← upTo? instrs count).partition Instr.isPhi
  let instrs ← splice? (← onward? instrs count) 0 (kept ++ replaced)
  let front ← upTo? instrs count
  let body ← onward? instrs count
  let (body, table, changes) ← numberAll? (numberInstr? place) body table
  return ({ block with instrs := front ++ body }, table, simplifications ++ changes)

/-- Replaces the values that the merges of the given blocks take from a block. -/
def propagate? (place : Place) (table : ValueTable) :
    List String → Indexed → Checked (Indexed × Log)
  | [], indexed => return (indexed, [])
  | target :: rest, indexed => do
    match ← ofOption (indexed.find? target) with
    | some block =>
      let (phis, log) := propagateToPhis place table target block.phis
      let indexed ← indexed.modify? target fun block =>
        some { block with instrs := phis ++ block.body }
      let (indexed, more) ← propagate? place table rest indexed
      return (indexed, log ++ more)
    | none => propagate? place table rest indexed

/-- Numbers the block of a name and passes its values on to the merges of its successors. -/
def visitBlock? (name : String) (table : ValueTable) (state : Indexed × Log) :
    Checked (ValueTable × Indexed × Log) := do
  let (indexed, log) := state
  match ← ofOption (indexed.find? name) with
  | none => return (table, indexed, log)
  | some block =>
    let place : Place := ⟨indexed.graph.name, name, passName⟩
    let (block, table, changes) ← ofOption (numberBlock? place table block)
    let indexed ← indexed.modify? name fun _ => some block
    let (indexed, copies) ← propagate? place table block.successors indexed
    return (table, indexed, log ++ (changes ++ copies))

/-- Numbers the values of a flow graph; the reports say what was changed. -/
def globalNumbering? (indexed : Indexed) : Checked (Indexed × Log) := do
  let tables ← indexed.dominance?
  let table ← ofOption (indexed.graph.paramNames.foldlM define? {})
  let tree ← ofOption tables.tree?
  walk? visitBlock? tree table (indexed, [])

/-- The checks on a merge pass. -/
theorem numberPhi?_eq (place : Place) (table : ValueTable) (instr : Instr) :
    numberPhi? place table instr = some (numberPhi place table instr) := by
  unfold numberPhi? numberPhi
  cases instr.action with
  | compute op dest ty operands =>
    dsimp only
    cases operands.args.mapM table.numberOf? with
    | none =>
      dsimp only
      rw [define?_eq]
      rfl
    | some numbers =>
      dsimp only
      cases simplify? table dest ty numbers (Expr.ofPhi place.block (operands.labels.zip numbers)) with
      | some simplified => rfl
      | none =>
        dsimp only
        rw [push?_eq]
        rfl
  | const dest ty literal => rfl
  | effect op operands => rfl
  | label name => rfl

/-- The checks on instructions pass if those on each one do. -/
theorem numberAll?_eq {step? : ValueTable → Instr → Option (Instr × ValueTable × Log)}
    {step : ValueTable → Instr → Instr × ValueTable × Log}
    (each : ∀ table instr, step? table instr = some (step table instr)) (instrs : List Instr)
    (table : ValueTable) :
    numberAll? step? instrs table = some (numberAll step instrs table) := by
  induction instrs generalizing table with
  | nil => rfl
  | cons instr rest restIH =>
    rw [numberAll?, each, some_bind]
    dsimp only
    rw [restIH]
    rfl

/-- The checks on a block pass. -/
theorem numberBlock?_eq (place : Place) (table : ValueTable) (block : Block) :
    numberBlock? place table block = some (numberBlock place table block) := by
  rw [numberBlock?]
  dsimp only
  rw [upTo?_eq block.phiCount_le, some_bind, onward?_eq block.phiCount_le, some_bind,
    block.take_phiCount, block.drop_phiCount, numberAll?_eq (numberPhi?_eq place), some_bind,
    numberBlock]
  have sameLength := length_numberAll (numberPhi place) block.phis table
  generalize numberAll (numberPhi place) block.phis table = numbered at sameLength ⊢
  obtain ⟨phis, table, simplifications⟩ := numbered
  have parted : ((phis.partition Instr.isPhi).1 ++ (phis.partition Instr.isPhi).2).length =
      phis.length := by
    rw [List.partition_eq_filter_filter, List.length_append]
    exact (List.length_eq_length_filter_add Instr.isPhi).symm
  have isCount : block.phiCount = phis.length := sameLength.symm
  dsimp only
  rw [isCount, upTo?_eq (by simp), some_bind, List.take_left, onward?_eq (by simp), some_bind,
    List.drop_left, splice?_eq (Nat.zero_le _), some_bind, List.take_zero, List.drop_zero,
    List.nil_append, upTo?_eq (by simp [← parted]), some_bind, List.take_left' parted,
    onward?_eq (by simp [← parted]), some_bind, List.drop_left' parted,
    numberAll?_eq (numberInstr?_eq place), some_bind]
  rfl

/-- Passing values on keeps the names. -/
theorem names_propagate (place : Place) (table : ValueTable) (targets : List String)
    (graph : FlowGraph) : (propagate place table targets graph).1.names = graph.names := by
  induction targets generalizing graph with
  | nil => rfl
  | cons target rest restIH =>
    rw [propagate]
    split
    · exact (restIH _).trans (FlowGraph.names_modifyBlock_of fun _ isName => isName)
    · exact restIH graph

/-- The checks on passing values on pass. -/
theorem propagate?_eq (place : Place) (table : ValueTable) (targets : List String)
    {graph : FlowGraph} (nodup : graph.names.Nodup) :
    propagate? place table targets (.of graph) =
      ofExcept (.ok (.of (propagate place table targets graph).1,
        (propagate place table targets graph).2)) := by
  induction targets generalizing graph with
  | nil => rfl
  | cons target rest restIH =>
    rw [propagate?, find?_eq nodup, ofOption_some, ofExcept_ok_bind, propagate]
    cases found : graph.find? target with
    | none => exact restIH nodup
    | some block =>
      dsimp only
      generalize propagateToPhis place table target block.phis = received
      have names_eq : (graph.modifyBlock target fun block =>
          { block with instrs := received.1 ++ block.body }).names = graph.names :=
        FlowGraph.names_modifyBlock_of fun _ isName => isName
      rw [modify?_eq nodup found (fun block => { block with instrs := received.1 ++ block.body }) rfl
        fun _ isName => isName, ofExcept_ok_bind, restIH (names_eq ▸ nodup)]
      rfl

/-- The checks on the visit of a block pass, and it keeps the names. -/
theorem visitBlock?_eq :
    Visits visitBlock? visit (fun state : FlowGraph × Log => (.of state.1, state.2))
      fun state => state.1.names.Nodup := by
  intro name table state nodup
  obtain ⟨graph, log⟩ := state
  rw [visitBlock?, visit, visitBlock]
  dsimp only [Indexed.graph_of] at nodup ⊢
  rw [find?_eq nodup, ofOption_some, ofExcept_ok_bind]
  cases found : graph.find? name with
  | none =>
    refine ⟨congrArg (fun log => ofExcept (.ok (table, Indexed.of graph, log)))
      (List.append_nil log).symm, fun visited isVisited => ?_⟩
    obtain rfl := Except.ok.inj isVisited
    exact nodup
  | some block =>
    have isName : (numberBlock ⟨graph.name, name, passName⟩ table block).1.name = name :=
      (numberBlock_modest ..).1.trans ((FlowGraph.find?_eq_some_iff nodup).1 found).2
    dsimp only
    rw [numberBlock?_eq, ofOption_some, ofExcept_ok_bind]
    generalize numberBlock ⟨graph.name, name, passName⟩ table block = numbered at isName ⊢
    obtain ⟨image, table, changes⟩ := numbered
    have names_eq : (graph.modifyBlock name fun _ => image).names = graph.names :=
      FlowGraph.names_modifyBlock_of fun _ _ => isName
    dsimp only
    rw [modify?_eq nodup found (fun _ => image) rfl fun _ _ => isName, ofExcept_ok_bind,
      propagate?_eq _ _ _ (names_eq ▸ nodup)]
    refine ⟨rfl, fun visited isVisited => ?_⟩
    obtain rfl := Except.ok.inj isVisited
    exact ((names_propagate ..).trans names_eq) ▸ nodup

/-- The checks on global numbering pass. -/
theorem globalNumbering?_eq {graph : FlowGraph} (nodup : graph.names.Nodup) :
    globalNumbering? (.of graph) =
      ofExcept ((run graph).map fun numbered => (.of numbered.1, numbered.2)) := by
  rw [globalNumbering?, run]
  refine bind_map_eq (dominanceOf?_eq graph) fun dominance isDominance => ?_
  have built := Ssa.built_of_ofFlowGraph isDominance
  dsimp only [Indexed.graph_of]
  rw [foldlM_define?, ofOption_some, ofExcept_ok_bind, tree?_eq built, ofOption_some,
    ofExcept_ok_bind]
  have passes := (walk?_eq visitBlock?_eq dominance.tree (graph.paramNames.foldl .define {})
    (graph, []) nodup).1
  rw [walk_visit] at passes
  exact passes

end Global

end Checked

end Midend
