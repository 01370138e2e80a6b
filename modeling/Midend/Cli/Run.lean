import Midend.Cli.Help
import Midend.Cli.Table
import Midend.Dataflow.Constants
import Midend.Dataflow.Definitions
import Midend.Optimizer
import Midend.Program.Json
import Midend.Registers.Allocation

/-! # Running commands

What a command prints and writes, given the contents of the files that it reads. -/

namespace Midend

namespace Cli

/-- What a run yields. -/
structure Output where
  /-- The exit status. -/
  status : Nat := 0
  /-- What is printed. -/
  text : String := ""
  /-- What went wrong. -/
  error : Option String := none
  /-- Files that are written, with their contents. -/
  files : List (String × String) := []
  deriving DecidableEq, Repr

/-- What a run yields when a file cannot be written: nothing is printed then. -/
def Output.unwritable (path : String) : Output :=
  { status := 1, error := some ("failed to write " ++ path) }

/-- Why a command failed. -/
inductive Fault where
  /-- It failed with a message. -/
  | message (text : String)
  /-- It could not go on. -/
  | crash
  deriving DecidableEq, Repr

/-- The contents of files; one that cannot be read has none. -/
abbrev Files := String → Option String

/-- The outcome of a library call. -/
def orFault {α : Type} : Except Error α → Except Fault α
  | .ok value => .ok value
  | .error error => .error (if error.isFatal then .crash else .message error.message)

/-- The outcome of a library call, with a message of its own if it failed. -/
def orMessage {α : Type} (text : String) : Except Error α → Except Fault α
  | .ok value => .ok value
  | .error error => .error (if error.isFatal then .crash else .message text)

/-! ## Inputs -/

/-- Reads a program. -/
def loadProgram (files : Files) (path : String) : Except Fault Program :=
  let complaint := "failed to load program: " ++ path
  match files path with
  | some text => orMessage complaint (Program.ofJson text)
  | none => .error (.message complaint)

/-- Reads settings, if a file is named. -/
def loadSettings (files : Files) : Option String → Except Fault Settings
  | none => .ok {}
  | some path =>
    match files path with
    | some text => orMessage ("invalid config: " ++ path) (Settings.ofJson text)
    | none => .error (.message ("failed to read config: " ++ path))

/-- The functions of a program, or the one of a name. -/
def selectFunctions (program : Program) : Option String → Except Fault (List Func)
  | none => .ok program.functions
  | some name =>
    match program.find? name with
    | some function => .ok [function]
    | none => .error (.message ("no function named '" ++ name ++ "'"))

/-! ## Optimization -/

/-- The counts that are shown. -/
def statisticsJson (statistics : Statistics) : Json :=
  .object
    [ ("constants_folded", .ofNat statistics.constantsFolded),
      ("values_reused", .ofNat statistics.valuesReused),
      ("phis_inserted", .ofNat statistics.phisInserted),
      ("phis_simplified", .ofNat statistics.phisSimplified),
      ("instructions_removed", .ofNat statistics.instructionsRemoved),
      ("blocks_removed", .ofNat statistics.blocksRemoved),
      ("iterations", .ofNat statistics.iterations),
      ("time_ms", .ofNat (statistics.nanoseconds / 1000000)) ]

/-- What became of a program, as JSON. -/
def optimizedJson (optimized : Optimized) : Json :=
  .object
    [ ("program", optimized.program.toJson.canonical),
      ("stats", statisticsJson optimized.statistics),
      ("failures", .array (optimized.failures.map fun (function, error) =>
        .object [("function", .string function), ("error", .string error.message)])) ]

/-- A table of events. -/
def eventTable (log : Log) : Table where
  headings := ["KIND", "FUNCTION", "BLOCK", "MESSAGE"]
  rows := log.map fun event =>
    [ .text event.kind.description, .ofOption event.function, .ofOption event.block,
      .text event.message ]

/-- Shows what became of a program, and writes it to a file if one is named. -/
def showOptimized (optimized : Optimized) (output : Option String) (events json : Bool) : Output :=
  let program := if output.isNone then optimized.program.render else ""
  let listed := if events then "\nEvents:\n" ++ (eventTable optimized.log).render else ""
  { text := if json then (optimizedJson optimized).pretty ++ "\n" else program ++ listed
    files := output.toList.map fun path => (path, optimized.program.toJsonText) }

/-! ## Analyses -/

/-- Shows functions in single assignment. -/
def showSsa (functions : List Func) (roundtrip json : Bool) : Except Fault Output := do
  let functions ← functions.mapM fun function => do
    let quoted := "'" ++ function.name ++ "'"
    let graph ← orFault (FlowGraph.ofFunc function)
    let (graph, _) ← orMessage ("cannot build SSA for " ++ quoted) (Ssa.construct graph)
    let graph ← if roundtrip then do
        let (graph, _) ← orMessage ("cannot leave SSA for " ++ quoted) (Ssa.destruct graph)
        pure graph
      else pure graph
    orFault graph.flatten
  let program : Program := ⟨functions⟩
  return { text := if json then program.toJsonText ++ "\n" else program.render }

/-- A flow graph as JSON. -/
def graphJson (graph : FlowGraph) : Json :=
  .object
    [ ("function", .string graph.name),
      ("entry", .string ((graph.names.head?).getD "")),
      ("block_count", .ofNat graph.blocks.length),
      ("blocks", .array (graph.blocks.map fun block => .object
        [ ("name", .string block.name), ("instruction_count", .ofNat block.instrs.length),
          ("predecessors", .ofStrings (graph.predecessorsOf block.name)),
          ("successors", .ofStrings block.successors) ])) ]

/-- A flow graph as a table. -/
def graphText (graph : FlowGraph) : String :=
  let table : Table :=
    { headings := ["BLOCK", "INSTRS", "PREDS", "SUCCS"]
      rows := graph.blocks.map fun block =>
        [ .text block.name, .count block.instrs.length,
          .names (graph.predecessorsOf block.name), .names block.successors ] }
  "CFG for @" ++ graph.name ++ "\n  Blocks: " ++ toString graph.blocks.length ++ "\n  Entry:  " ++
    (graph.names.head?).getD "" ++ "\n\n" ++ table.render ++ "\n"

/-- Shows flow graphs. -/
def showGraphs (functions : List Func) (format : GraphFormat) : Except Fault Output := do
  let graphs ← functions.mapM fun function => orFault (FlowGraph.ofFunc function)
  let text := match format with
    | .json => (Json.array (graphs.map graphJson)).pretty ++ "\n"
    | .dot => String.join (graphs.map fun graph => graph.toDot ++ "\n")
    | .text => String.join (graphs.map graphText)
  return { text }

/-- The dominance of a function as JSON. -/
def dominanceJson (function : String) (dominance : Dominance) : Json :=
  .object
    [ ("function", .string function), ("entry", .string dominance.entryName),
      ("blocks", .object (dominance.blocks.map fun name => (name, .object
        [ ("dominators", .ofStrings (dominance.dominators name)),
          ("idom", ((dominance.immediateDominator? name).map .string).getD .null),
          ("children", .ofStrings (dominance.children name)),
          ("frontier", .ofStrings (dominance.frontier name)) ]))) ]

/-- The dominance of a function as a table. -/
def dominanceText (function : String) (dominance : Dominance) : String :=
  let table : Table :=
    { headings := ["BLOCK", "IDOM", "DOMINATORS", "CHILDREN", "FRONTIER"]
      rows := dominance.blocks.map fun name =>
        [ .text name, .ofOption (dominance.immediateDominator? name),
          .names (dominance.dominators name), .names (dominance.children name),
          .names (dominance.frontier name) ] }
  "Dominance for @" ++ function ++ " (entry " ++ dominance.entryName ++ ")\n" ++ table.render ++
    "\n"

/-- Shows dominance. -/
def showDominance (functions : List Func) (json : Bool) : Except Fault Output := do
  let results ← functions.mapM fun function => do
    let graph ← orFault (FlowGraph.ofFunc function)
    return (function.name, ← orFault (Dominance.ofFlowGraph graph))
  return { text :=
    if json then (Json.array (results.map fun (name, result) => dominanceJson name result)).pretty
      ++ "\n"
    else String.join (results.map fun (name, result) => dominanceText name result) }

/-- The solution of an analysis as texts: how many visits it took, and what holds at the start and
the end of each block. -/
structure ShownSolution where
  /-- The number of visits. -/
  iterations : Nat
  /-- What holds at the start and the end of each block. -/
  blocks : SortedMap String (List String × List String)

/-- The texts of a solution. -/
def ShownSolution.ofSolution {σ : Type} (solution : Solution σ) (items : σ → List String) :
    ShownSolution where
  iterations := solution.iterations
  blocks := .ofList (solution.names.zip
    ((solution.before.zip solution.after).map fun (before, after) => (items before, items after)))

/-- Solves an analysis. -/
def AnalysisName.solve (analysis : AnalysisName) (graph : FlowGraph) (limit : Nat) :
    Except Error ShownSolution := do
  match analysis with
  | .defined =>
    let solution ← (DefinedVariables.analysis graph).solve graph limit
    return .ofSolution solution SortedSet.toList
  | .live =>
    let solution ← Liveness.analysis.solve graph limit
    return .ofSolution solution SortedSet.toList
  | .reaching =>
    let solution ← (ReachingDefinitions.analysis graph).solve graph limit
    return .ofSolution solution fun set => set.toList.map Definition.render
  | .constants =>
    let solution ← (ConstantPropagation.analysis graph).solve graph limit
    return .ofSolution solution fun state => state.toList.map fun (var, value) =>
      var ++ "=" ++ value.render

/-- A solution as JSON. -/
def solutionJson (analysis : AnalysisName) (function : String) (solution : ShownSolution) : Json :=
  .object
    [ ("function", .string function), ("analysis", .string analysis.render),
      ("iterations", .ofNat solution.iterations),
      ("blocks", .object (solution.blocks.toList.map fun (name, before, after) =>
        (name, .object [("in", .ofStrings before), ("out", .ofStrings after)]))) ]

/-- A solution as a table. -/
def solutionText (analysis : AnalysisName) (function : String) (solution : ShownSolution) :
    String :=
  let table : Table :=
    { headings := ["BLOCK", "IN", "OUT"]
      rows := solution.blocks.toList.map fun (name, before, after) =>
        [.text name, .names before, .names after] }
  analysis.render ++ " for @" ++ function ++ " (" ++ toString solution.iterations ++
    " iterations)\n" ++ table.render ++ "\n"

/-- Shows the solutions of an analysis. -/
def showDataflow (functions : List Func) (analysis : AnalysisName) (limit : Nat) (json : Bool) :
    Except Fault Output := do
  let results ← functions.mapM fun function => do
    let graph ← orFault (FlowGraph.ofFunc function)
    return (function.name, ← orFault (analysis.solve graph limit))
  return { text :=
    if json then
      (Json.array (results.map fun (name, result) => solutionJson analysis name result)).pretty
        ++ "\n"
    else String.join (results.map fun (name, result) => solutionText analysis name result) }

/-! ## Registers -/

/-- The functions of an allocation by name, with their registers or why they have none. -/
def coloringsByName (allocation : Allocation) : SortedMap String (Except Error Coloring) :=
  allocation.errors.foldl (fun known (name, error) => known.insert name (.error error))
    allocation.colorings

/-- The registers of a function as JSON, or why it has none. -/
def coloringJson : Except Error Coloring → Json
  | .ok colors => .object (colors.toList.map fun (var, register) => (var, .string register))
  | .error error =>
    let remaining := match error with
      | .allocationFailed _ remaining => remaining
      | _ => []
    .object [("error", .string error.message), ("remaining", .ofStrings remaining)]

/-- The registers of a function as a table, or why it has none. -/
def coloringText (function : String) (coloring : Except Error Coloring) : String :=
  let body := match coloring with
    | .ok colors =>
      ({ headings := ["VARIABLE", "REGISTER"]
         rows := colors.toList.map fun (var, register) => [.text var, .text register] } :
        Table).render
    | .error error => "  " ++ error.message ++ "\n"
  "@" ++ function ++ "\n" ++ body ++ "\n"

/-- Shows the registers of functions. -/
def showAllocation (allocation : Allocation) (json : Bool) : Output :=
  let colorings := (coloringsByName allocation).toList
  { text :=
      if json then
        (Json.object (colorings.map fun (name, coloring) => (name, coloringJson coloring))).pretty
          ++ "\n"
      else String.join (colorings.map fun (name, coloring) => coloringText name coloring) }

/-! ## Dispatch -/

/-- Runs a command. -/
def Invocation.run (invocation : Invocation) (files : Files) : Except Fault Output := do
  let program ← loadProgram files invocation.path
  let json := invocation.json
  let complaint := "failed to optimize " ++ invocation.path
  match invocation.command with
  | .opt output lvn gvn dce ssa roundLimit events =>
    let settings ← loadSettings files invocation.config
    let settings := { settings with
      lvn := settings.lvn && lvn, gvn := settings.gvn && gvn, dce := settings.dce && dce,
      ssa := settings.ssa && ssa, roundLimit := roundLimit.getD settings.roundLimit }
    let optimized ← orMessage complaint (Optimizer.run settings program)
    return showOptimized optimized output events json
  | .ssa function roundtrip => showSsa (← selectFunctions program function) roundtrip json
  | .cfg function format => showGraphs (← selectFunctions program function) format
  | .dom function => showDominance (← selectFunctions program function) json
  | .dataflow function analysis =>
    let settings ← loadSettings files invocation.config
    showDataflow (← selectFunctions program function) analysis settings.visitLimit json
  | .regalloc registers optimize =>
    let settings ← loadSettings files invocation.config
    let program ← if optimize then do
        let optimized ← orMessage complaint (Optimizer.run settings program)
        pure optimized.program
      else pure program
    let registers := registers.getD settings.registers
    return showAllocation (← orFault (Allocation.ofProgram registers program)) json

/-- What is answered to arguments that name nothing to run. -/
def Refusal.output (program : String) (refusal : Refusal) : Output :=
  match refusal.stop with
  | .usage => { status := 2 }
  | .version => { text := versionText program }
  | .help long => { text := refusal.topic.text program long }

/-- Runs what the arguments of a program ask for. -/
def run (program : String) (args : List String) (files : Files) : Output :=
  match Invocation.ofArgs args with
  | .error refusal => refusal.output program
  | .ok invocation =>
    match invocation.run files with
    | .ok output => output
    | .error (.message text) => { status := 1, error := some text }
    | .error .crash => { status := 101 }

end Cli

end Midend
