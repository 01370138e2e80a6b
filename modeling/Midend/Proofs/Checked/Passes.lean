import Midend.Proofs.Checked.Values
import Midend.Proofs.Pass
import Midend.Proofs.Typing.Passes

/-! # Checked passes

Dead code elimination marks the places of overwritten instructions in a table with a place for each
instruction, which is looked up again when the instructions are removed. The scan reports places that
it has been at, so the checks pass, and they do so in all passes, one after another and round after
round (`Checked.runPass?_eq`, `Checked.runSchedule?_eq`). -/

namespace Midend

namespace Checked

/-! ## Dead code -/

section DeadCode

open DeadCode

/-- Marks the places of instructions whose results are overwritten before they are read: a scan with
the writes that are still unread. -/
def markOverwritten? : (index : Nat) → List Instr → SortedMap String Nat → (dead : List Bool) →
    Option (List Bool)
  | _, [], _, dead => some dead
  | index, instr :: rest, pending, dead =>
    let pending := instr.args.foldl (fun pending arg => pending.erase arg) pending
    match instr.dest? with
    | none => markOverwritten? (index + 1) rest pending dead
    | some dest => do
      let dead ← (pending.get? dest).toList.foldlM (fun dead previous => put? dead previous true) dead
      let pending := pending.erase dest
      let pending := if instr.isPure then pending.insert dest index else pending
      markOverwritten? (index + 1) rest pending dead

/-- Removes the instructions of a block whose results are overwritten before they are read. -/
def dropOverwritten? (place : Place) (block : Block) : Option (Block × Log) := do
  let dead ← markOverwritten? 0 block.instrs .empty (block.instrs.map fun _ => false)
  let gone ← block.instrs.zipIdx.filterM fun (_, index) => dead[index]?
  let kept ← block.instrs.zipIdx.filterM fun (_, index) => dead[index]?.map (!·)
  return ({ block with instrs := kept.map Prod.fst },
    gone.map fun (instr, _) => place.report .instructionRemoved ("overwritten " ++ instr.render))

/-- Changes the blocks of a flow graph one after another. -/
def changeBlocks? (function : String) (change? : Place → Block → Option (Block × Log)) :
    List Block → Option (List Block × Log)
  | [] => some ([], [])
  | block :: rest => do
    let (block, log) ← change? ⟨function, block.name, passName⟩ block
    let (rest, more) ← changeBlocks? function change? rest
    return (block :: rest, log ++ more)

/-- One round: unread variables first, then overwritten ones. -/
def round? (indexed : Indexed) : Option (Indexed × Log) := do
  let graph := indexed.graph
  let (blocks, unused) := changeBlocks graph.name (dropUnused (readVars graph)) graph.blocks
  let (blocks, overwritten) ← changeBlocks? graph.name dropOverwritten? blocks
  return ({ indexed with graph := { graph with blocks } }, unused ++ overwritten)

/-- Runs rounds until one removes nothing, `budget` at most; says whether that happened. -/
def rounds? : (budget : Nat) → Indexed → Option (Indexed × Log × Bool)
  | 0, indexed => some (indexed, [], false)
  | budget + 1, indexed => do
    let (next, log) ← round? indexed
    if log.isEmpty then return (indexed, [], true)
    else
      let (indexed, more, settled) ← rounds? budget next
      return (indexed, log ++ more, settled)

/-- Marks places. -/
def marked (dead : List Bool) (places : List Nat) : List Bool :=
  places.foldl (fun dead place => dead.set place true) dead

@[simp] theorem length_marked (dead : List Bool) (places : List Nat) :
    (marked dead places).length = dead.length := by
  induction places generalizing dead with
  | nil => rfl
  | cons place rest restIH => exact (restIH _).trans List.length_set

/-- The places marked are the ones given and those marked before. -/
theorem getElem?_marked (dead : List Bool) (places : List Nat) (index : Nat) :
    (marked dead places)[index]? = dead[index]?.map (places.contains index || ·) := by
  induction places generalizing dead with
  | nil => simp [marked]
  | cons place rest restIH =>
    rw [marked, List.foldl_cons, ← marked, restIH, List.getElem?_set, List.contains_cons]
    by_cases isPlace : place = index
    · subst isPlace
      by_cases inside : place < dead.length
      · simp [inside]
      · simp [inside]
    · have others : (index == place) = false := beq_false_of_ne (Ne.symm isPlace)
      rw [if_neg isPlace, others, Bool.false_or]

/-- The place that the first instruction overwrites is marked, and the scan goes on behind it. -/
theorem markOverwritten?_cons (index : Nat) (instr : Instr) (rest : List Instr)
    (pending : SortedMap String Nat) (dead : List Bool) :
    markOverwritten? index (instr :: rest) pending dead =
      (instr.dest?.bind (instr.args.foldl (fun pending arg => pending.erase arg)
        pending).get?).toList.foldlM (fun dead previous => put? dead previous true) dead >>=
      markOverwritten? (index + 1) rest (pendingAfter index instr pending) := by
  rw [markOverwritten?, pendingAfter]
  cases instr.dest? <;> rfl

/-- The checks on marking places pass: pending writes are at places that the scan has been at. -/
theorem markOverwritten?_eq {index : Nat} {instrs : List Instr} {pending : SortedMap String Nat}
    {dead : List Bool} (before : ∀ var place, pending.get? var = some place → place < index)
    (fits : index + instrs.length = dead.length) :
    markOverwritten? index instrs pending dead =
      some (marked dead (overwrittenFrom index instrs pending)) := by
  induction instrs generalizing index pending dead with
  | nil => rfl
  | cons instr rest restIH =>
    rw [List.length_cons] at fits
    rw [markOverwritten?_cons, overwrittenFrom_cons]
    cases found : instr.dest?.bind
        (instr.args.foldl (fun pending arg => pending.erase arg) pending).get? with
    | none => exact restIH (lt_of_get?_pendingAfter before) (by omega)
    | some previous =>
      obtain ⟨dest, _, isUnread⟩ := Option.bind_eq_some_iff.1 found
      rw [get?_foldl_erase] at isUnread
      split at isUnread
      · cases isUnread
      · -- The write that is overwritten is before this one, so it has a mark.
        have inside := before dest previous isUnread
        rw [Option.toList_some, List.foldlM_cons, put?_eq (by omega)]
        exact restIH (lt_of_get?_pendingAfter before) (by rw [List.length_set]; omega)

/-- The checks on the removal of overwritten instructions pass. -/
theorem dropOverwritten?_eq (place : Place) (block : Block) :
    dropOverwritten? place block = some (dropOverwritten place block) := by
  rw [dropOverwritten?, dropOverwritten, markOverwritten?_eq (by simp) (by simp), some_bind]
  generalize overwrittenFrom 0 block.instrs .empty = places
  have isMarked : ∀ entry ∈ block.instrs.zipIdx,
      (marked (block.instrs.map fun _ => false) places)[entry.2]? =
        some (places.contains entry.2) := by
    intro entry member
    have inside : entry.2 < block.instrs.length := List.snd_lt_of_mem_zipIdx member
    rw [getElem?_marked, List.getElem?_map, List.getElem?_eq_getElem inside, Option.map_some,
      Option.map_some, Bool.or_false]
  have goes := filterM_eq_some isMarked
  have stays : ∀ entry ∈ block.instrs.zipIdx,
      (marked (block.instrs.map fun _ => false) places)[entry.2]?.map (!·) =
        some (!places.contains entry.2) :=
    fun entry member => congrArg (Option.map (!·)) (isMarked entry member)
  rw [goes, some_bind, filterM_eq_some stays, some_bind]
  dsimp only
  rw [List.partition_eq_filter_filter]
  rfl

/-- The checks on blocks pass if those on each one do. -/
theorem changeBlocks?_eq (function : String) {change? : Place → Block → Option (Block × Log)}
    {change : Place → Block → Block × Log}
    (each : ∀ place block, change? place block = some (change place block)) (blocks : List Block) :
    changeBlocks? function change? blocks = some (changeBlocks function change blocks) := by
  induction blocks with
  | nil => rfl
  | cons block rest restIH =>
    rw [changeBlocks?, each, some_bind, restIH]
    rfl

/-- The checks on a round pass. -/
theorem round?_eq (graph : FlowGraph) :
    round? (.of graph) = some (.of (round graph).1, (round graph).2) := by
  rw [round?]
  dsimp only [Indexed.graph_of]
  rw [changeBlocks?_eq graph.name dropOverwritten?_eq, some_bind]
  exact congrArg (fun indexed => some (indexed, (round graph).2))
    (of_eq_of_names (round_drops graph).1)

/-- The checks on rounds pass. -/
theorem rounds?_eq (budget : Nat) (graph : FlowGraph) :
    rounds? budget (.of graph) = some (.of (rounds budget graph).1, (rounds budget graph).2) := by
  induction budget generalizing graph with
  | zero => rfl
  | succ budget budgetIH =>
    rw [rounds?, round?_eq, some_bind, rounds]
    dsimp only
    split
    · rfl
    · rw [budgetIH]
      rfl

end DeadCode

/-! ## Passes and schedules -/

section Passes

variable {α : Type}

/-- What became of a flow graph with the places of its blocks. -/
structure IndexedOutcome (α : Type) where
  /-- The flow graph afterwards. -/
  indexed : Indexed
  /-- What was reported. -/
  log : Log
  /-- The answer, or why there is none. -/
  result : Except Error α

/-- An outcome with a new index. -/
def IndexedOutcome.of (outcome : Outcome α) : IndexedOutcome α :=
  ⟨.of outcome.graph, outcome.log, outcome.result⟩

/-- Runs a pass; the answer says whether it changed anything. -/
def runPass? (pass : Pass) (indexed : Indexed) : Option (IndexedOutcome Bool) := do
  match pass with
  | .localNumbering =>
    let (indexed, log) ← localNumbering? indexed
    return ⟨indexed, log, .ok !log.isEmpty⟩
  | .globalNumbering =>
    match ← (globalNumbering? indexed).run with
    | .ok (indexed, log) => return ⟨indexed, log, .ok !log.isEmpty⟩
    | .error error => return ⟨indexed, [], .error error⟩
  | .deadCode limit =>
    let limit := DeadCode.roundLimit indexed.graph limit
    let (indexed, log, settled) ← rounds? limit indexed
    return ⟨indexed, log, if settled then .ok !log.isEmpty
      else .error (.nonConvergence "dead code elimination" limit)⟩

/-- Runs passes one after another, up to the first that fails; the answer says whether any of them
changed anything. -/
def runOnce? : List Pass → Indexed → Option (IndexedOutcome Bool)
  | [], indexed => some ⟨indexed, [], .ok false⟩
  | pass :: rest, indexed => do
    let first ← runPass? pass indexed
    match first.result with
    | .error _ => return first
    | .ok changed =>
      let others ← runOnce? rest first.indexed
      return ⟨others.indexed, first.log ++ others.log, others.result.map (changed || ·)⟩

/-- Runs rounds, the first of which has the number `round`, until one changes nothing; the answer is
the number of that round, or none if `budget` rounds do not get there. -/
def runRounds? (passes : List Pass) :
    (budget round : Nat) → Indexed → Option (IndexedOutcome (Option Nat))
  | 0, _, indexed => some ⟨indexed, [], .ok none⟩
  | budget + 1, round, indexed => do
    let first ← runOnce? passes indexed
    match first.result with
    | .error error => return ⟨first.indexed, first.log, .error error⟩
    | .ok false => return ⟨first.indexed, first.log, .ok (some round)⟩
    | .ok true =>
      let others ← runRounds? passes budget (round + 1) first.indexed
      return ⟨others.indexed, first.log ++ others.log, others.result⟩

/-- Repeats the passes until they change nothing; the answer is the number of rounds, the last
included. -/
def runSchedule? (schedule : Schedule) (indexed : Indexed) : Option (IndexedOutcome Nat) := do
  let limit := max schedule.limit 1
  let outcome ← runRounds? schedule.passes limit 1 indexed
  let result := outcome.result.bind fun
    | some rounds => .ok rounds
    | none => .error (.nonConvergence "pass scheduler" limit)
  return ⟨outcome.indexed, outcome.log, result⟩

variable {graph : FlowGraph}

/-- A pass keeps the names of blocks. -/
theorem names_runPass (nodup : graph.names.Nodup) (pass : Pass) :
    (pass.run graph).graph.names = graph.names := by
  cases pass with
  | localNumbering => exact (LocalNumbering.modest_run graph).names_eq
  | globalNumbering =>
    rw [Pass.run]
    split
    · rename_i ran
      exact (GlobalNumbering.modest_run nodup ran).names_eq
    · rfl
  | deadCode limit => exact (DeadCode.rounds_drop _ graph).1

/-- The checks on a pass pass. -/
theorem runPass?_eq (nodup : graph.names.Nodup) (pass : Pass) :
    runPass? pass (.of graph) = some (.of (pass.run graph)) := by
  cases pass with
  | localNumbering =>
    rw [runPass?, localNumbering?_eq, some_bind]
    rfl
  | globalNumbering =>
    rw [runPass?, globalNumbering?_eq nodup, Pass.run]
    cases GlobalNumbering.run graph <;> rfl
  | deadCode limit =>
    rw [runPass?, rounds?_eq, some_bind, Pass.run, DeadCode.run]
    dsimp only [Indexed.graph_of]
    generalize DeadCode.rounds _ graph = done
    obtain ⟨after, log, settled⟩ := done
    cases settled <;> rfl

/-- Passes one after another keep the names of blocks. -/
theorem names_runOnce (nodup : graph.names.Nodup) (passes : List Pass) :
    (Schedule.runOnce passes graph).graph.names = graph.names :=
  Schedule.kept_runOnce (fun after => after.names = graph.names)
    (fun pass _ same => (names_runPass (same ▸ nodup) pass).trans same) passes rfl

/-- The checks on passes one after another pass. -/
theorem runOnce?_eq (nodup : graph.names.Nodup) (passes : List Pass) :
    runOnce? passes (.of graph) = some (.of (Schedule.runOnce passes graph)) := by
  induction passes generalizing graph with
  | nil => rfl
  | cons pass rest restIH =>
    have first := names_runPass nodup pass
    rw [runOnce?, runPass?_eq nodup, some_bind, Schedule.runOnce]
    generalize pass.run graph = outcome at first ⊢
    obtain ⟨after, log, _ | changed⟩ := outcome
    · rfl
    · show runOnce? rest (.of after) >>= _ = _
      rw [restIH (first ▸ nodup)]
      rfl

/-- The checks on rounds of passes pass. -/
theorem runRounds?_eq (nodup : graph.names.Nodup) (passes : List Pass) (budget round : Nat) :
    runRounds? passes budget round (.of graph) =
      some (.of (Schedule.runRounds passes budget round graph)) := by
  induction budget generalizing round graph with
  | zero => rfl
  | succ budget budgetIH =>
    have first := names_runOnce nodup passes
    rw [runRounds?, runOnce?_eq nodup, some_bind, Schedule.runRounds]
    generalize Schedule.runOnce passes graph = outcome at first ⊢
    obtain ⟨after, log, _ | _ | _⟩ := outcome
    · rfl
    · rfl
    · show runRounds? passes budget (round + 1) (.of after) >>= _ = _
      rw [budgetIH (first ▸ nodup)]
      rfl

/-- The checks on a schedule pass. -/
theorem runSchedule?_eq (nodup : graph.names.Nodup) (schedule : Schedule) :
    runSchedule? schedule (.of graph) = some (.of (schedule.run graph)) := by
  rw [runSchedule?, runRounds?_eq nodup]
  rfl

/-- A schedule keeps the names of blocks. -/
theorem names_runSchedule (nodup : graph.names.Nodup) (schedule : Schedule) :
    (schedule.run graph).graph.names = graph.names :=
  schedule.kept_run (fun after => after.names = graph.names)
    (fun pass _ same => (names_runPass (same ▸ nodup) pass).trans same) rfl

end Passes

end Checked

end Midend
