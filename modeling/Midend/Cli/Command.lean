import Midend.Cli.Arguments

/-! # Commands

The commands, their options, and what arguments ask for. -/

namespace Midend

namespace Cli

/-! ## Names and options -/

/-- The names of the commands. -/
inductive CommandName where
  /-- Optimizes a program. -/
  | opt
  /-- Shows single assignment. -/
  | ssa
  /-- Shows flow graphs. -/
  | cfg
  /-- Shows dominance. -/
  | dom
  /-- Shows the solution of a dataflow analysis. -/
  | dataflow
  /-- Allocates registers. -/
  | regalloc
  deriving DecidableEq, Repr

namespace CommandName

/-- All commands. -/
def all : List CommandName := [.opt, .ssa, .cfg, .dom, .dataflow, .regalloc]

/-- The name of a command. -/
def render : CommandName → String
  | .opt => "opt"
  | .ssa => "ssa"
  | .cfg => "cfg"
  | .dom => "dom"
  | .dataflow => "dataflow"
  | .regalloc => "regalloc"

/-- The command of a name. -/
def ofText? (text : String) : Option CommandName := all.find? fun name => name.render == text

/-- What a command does. -/
def summary : CommandName → String
  | .opt => "Optimize a program and print the result"
  | .ssa => "Print a function in SSA form"
  | .cfg => "Display the control-flow graph of functions"
  | .dom => "Display dominators, the dominator tree and dominance frontiers"
  | .dataflow => "Run a dataflow analysis and print the in/out sets of every block"
  | .regalloc => "Allocate registers and print the coloring of every function"

end CommandName

/-- The options that all commands share. -/
def globalOptions : List OptionSpec :=
  [ { name := "json", help := "Emit output as JSON instead of human-readable text" },
    { name := "verbose", short := some 'v',
      help := "Enable verbose (debug-level) logging output" },
    { name := "config", value := some (.path "FILE"),
      help := "Optimizer configuration file (JSON). Flags override its fields" } ]

/-- Selects a function. -/
def functionOption : OptionSpec :=
  { name := "function", value := some (.text "NAME"), help := "Only this function (default: all)" }

/-- How a flow graph is shown. -/
inductive GraphFormat where
  /-- As a table. -/
  | text
  /-- As a drawing. -/
  | dot
  /-- As JSON. -/
  | json
  deriving DecidableEq, Repr

/-- The formats by name. -/
def GraphFormat.all : List (String × GraphFormat) :=
  [("text", .text), ("dot", .dot), ("json", .json)]

/-- The analyses that can be run. -/
inductive AnalysisName where
  /-- Variables that are defined. -/
  | defined
  /-- Variables that are live. -/
  | live
  /-- Definitions that reach. -/
  | reaching
  /-- Variables with known values. -/
  | constants
  deriving DecidableEq, Repr

namespace AnalysisName

/-- The analyses by name. -/
def all : List (String × AnalysisName) :=
  [ ("defined", .defined), ("live", .live), ("reaching", .reaching), ("constants", .constants) ]

/-- The name of an analysis. -/
def render : AnalysisName → String
  | .defined => "defined"
  | .live => "live"
  | .reaching => "reaching"
  | .constants => "constants"

/-- What an analysis finds. -/
def summary : AnalysisName → String
  | .defined => "Variables defined on some path to each point"
  | .live => "Variables read later without an intervening write"
  | .reaching => "Definitions that reach each point"
  | .constants => "Variables with a known constant value"

end AnalysisName

/-- The options of a command besides the shared ones. -/
def CommandName.options : CommandName → List OptionSpec
  | .opt =>
    [ { name := "output", short := some 'o', value := some (.path "PATH"),
        help := "Write the optimized program as JSON to this file" },
      { name := "no-lvn", help := "Disable local value numbering" },
      { name := "no-gvn", help := "Disable global value numbering" },
      { name := "no-dce", help := "Disable dead code elimination" },
      { name := "no-ssa", help := "Skip the SSA round trip (also disables GVN)" },
      { name := "max-iterations", value := some (.natural "MAX_ITERATIONS"),
        help := "Maximum rounds of the pass fixpoint" },
      { name := "events", help := "Print every recorded event" } ]
  | .ssa =>
    [ functionOption,
      { name := "roundtrip", help := "Convert back out of SSA before printing" } ]
  | .cfg =>
    [ functionOption,
      { name := "format", fallback := some "text", help := "Output format",
        value := some (.choice "FORMAT" (GraphFormat.all.map fun format => (format.1, ""))) } ]
  | .dom => [functionOption]
  | .dataflow =>
    [ { name := "analysis", fallback := some "live", help := "The analysis to run",
        value := some (.choice "ANALYSIS"
          (AnalysisName.all.map fun analysis => (analysis.1, analysis.2.summary))) },
      functionOption ]
  | .regalloc =>
    [ { name := "registers", value := some (.text "REGS"), repeatable := true,
        help := "Comma-separated register names (default: from config)" },
      { name := "optimize", help := "Optimize before allocating" } ]

/-! ## Commands -/

/-- What to do with the program in a file. -/
inductive Command where
  /-- Optimize it, with limits on what is done; `output` is a file for the result. -/
  | opt (output : Option String) (lvn gvn dce ssa : Bool) (roundLimit : Option Nat) (events : Bool)
  /-- Show single assignment, or what becomes of it on the way back. -/
  | ssa (function : Option String) (roundtrip : Bool)
  /-- Show flow graphs. -/
  | cfg (function : Option String) (format : GraphFormat)
  /-- Show dominance. -/
  | dom (function : Option String)
  /-- Show the solution of an analysis. -/
  | dataflow (function : Option String) (analysis : AnalysisName)
  /-- Allocate registers. -/
  | regalloc (registers : Option (List String)) (optimize : Bool)
  deriving DecidableEq, Repr

/-- What arguments ask for. -/
structure Invocation where
  /-- What to do. -/
  command : Command
  /-- The file with the program. -/
  path : String
  /-- The file with the settings, if there is one. -/
  config : Option String
  /-- Whether to answer in JSON. -/
  json : Bool
  deriving DecidableEq, Repr

/-- The command that options describe. -/
def CommandName.interpret (name : CommandName) (given : Given) : Command :=
  let function := given.value? "function"
  match name with
  | .opt =>
    .opt (given.value? "output") (!given.has "no-lvn") (!given.has "no-gvn") (!given.has "no-dce")
      (!given.has "no-ssa") ((given.value? "max-iterations").bind natural?) (given.has "events")
  | .ssa => .ssa function (given.has "roundtrip")
  | .cfg =>
    let format := (given.value? "format").bind fun name => GraphFormat.all.lookup name
    .cfg function (format.getD .text)
  | .dom => .dom function
  | .dataflow =>
    let analysis := (given.value? "analysis").bind fun name => AnalysisName.all.lookup name
    .dataflow function (analysis.getD .live)
  | .regalloc =>
    let values := given.values "registers"
    .regalloc (if values.isEmpty then none else some (values.flatMap (·.splitOn ",")))
      (given.has "optimize")

/-- What a help text is about. -/
inductive Topic where
  /-- The program. -/
  | program
  /-- One of its commands. -/
  | command (name : CommandName)
  /-- The request for help itself. -/
  | help
  deriving DecidableEq, Repr

/-- Why arguments do not lead to an invocation, and what they are about. -/
structure Refusal where
  /-- What the arguments are about. -/
  topic : Topic
  /-- The cause. -/
  stop : Stop
  deriving DecidableEq, Repr

/-- Reads the arguments after the name of a command. Options before the name hold unless they are
given again after it. -/
def CommandName.read (name : CommandName) (before : Given) (args : List String) :
    Except Refusal Invocation :=
  match collect (name.options ++ globalOptions ++ [helpOption]) 1 args {} .nothing with
  | .error stop => .error ⟨.command name, stop⟩
  | .ok (given, _) =>
    match given.words with
    | [path] =>
      .ok { command := name.interpret given, path,
            config := (given.value? "config").or (before.value? "config"),
            json := given.has "json" || before.has "json" }
    | _ => .error ⟨.command name, .usage⟩

/-- Reads what follows the request for help. -/
def readHelp : List String → Refusal
  | [] => ⟨.program, .help true⟩
  | ["help"] => ⟨.help, .help true⟩
  | [word] =>
    match CommandName.ofText? word with
    | some name => ⟨.command name, .help true⟩
    | none => ⟨.program, .usage⟩
  | _ => ⟨.program, .usage⟩

/-- Reads all arguments. What is left open before the name of a command is settled only after the
command's own arguments make sense. -/
def Invocation.ofArgs (args : List String) : Except Refusal Invocation :=
  match collect (globalOptions ++ [helpOption, versionOption]) 0 args {} .nothing with
  | .error stop => .error ⟨.program, stop⟩
  | .ok (_, _, []) => .error ⟨.program, .usage⟩
  | .ok (given, pending, word :: rest) =>
    if word = "help" then .error (readHelp rest)
    else
      match CommandName.ofText? word, pending.settle given with
      | none, _ => .error ⟨.program, .usage⟩
      | some name, .ok given => name.read given rest
      | some name, .error stop => do
        let _ ← name.read given rest
        .error ⟨.program, stop⟩

/-- The files that an invocation reads. -/
def Invocation.inputs (invocation : Invocation) : List String :=
  invocation.path :: invocation.config.toList

end Cli

end Midend
