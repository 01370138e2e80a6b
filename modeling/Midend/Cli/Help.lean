import Midend.Cli.Command
import Midend.Cli.Width

/-! # Help texts

The texts that describe the program and its commands; the program goes by the name under which it
is run. A command's own options are listed in turn with those that it shares with others. Where the
names of options leave too little room, or help is wanted at length, descriptions stand on lines of
their own. -/

namespace Midend

namespace Cli

/-- What the program of a name does. -/
def programSummary (program : String) : String :=
  "Command-line driver for the " ++ program ++ " optimizer: optimize IR programs, inspect CFGs, " ++
    "dominance, dataflow and register colorings"

/-- The text of the version. -/
def versionText (program : String) : String := program ++ " 0.4.0\n"

/-- An entry of a help text. -/
structure HelpEntry where
  /-- What comes before the name. -/
  lead : String := ""
  /-- What the entry is about. -/
  name : String
  /-- What it does. -/
  text : String
  /-- Words that may be given, with descriptions; shown at length only. -/
  choices : List (String × String) := []
  /-- What follows the text. -/
  remark : String := ""
  deriving DecidableEq, Repr

/-- A text between brackets, after a blank. -/
def bracketed (text : String) : String := " [" ++ text ++ "]"

/-- The entry of an option. The words that may be given are listed in its remark unless they are
described at length. -/
def OptionSpec.helpEntry (spec : OptionSpec) (long : Bool) : HelpEntry :=
  let lead := match spec.short with
    | some letter => "-" ++ letter.toString ++ ", "
    | none => "    "
  let name := "--" ++ spec.name ++ match spec.value with
    | some kind => " <" ++ kind.placeholder ++ ">"
    | none => ""
  let choices := match spec.value with
    | some (.choice _ choices) => choices
    | _ => []
  let described := long && choices.any fun choice => !choice.2.isEmpty
  let fallback := match spec.fallback with
    | some value => bracketed ("default: " ++ value)
    | none => ""
  let listed :=
    if choices.isEmpty || described then ""
    else bracketed ("possible values: " ++ ", ".intercalate (choices.map Prod.fst))
  { lead, name, text := spec.help, choices := if described then choices else [],
    remark := fallback ++ listed }

/-- Takes options of two lists in turn, except that of each two the one whose key comes first is put
first. -/
def inTurn (key : OptionSpec → String) : List OptionSpec → List OptionSpec → List OptionSpec
  | left :: rest, right :: others =>
    if key left ≤ key right then left :: right :: inTurn key rest others
    else right :: left :: inTurn key rest others
  | [], others => others
  | rest, [] => rest

/-- The key by which options of equal rank are ordered: the letter, or else the name. -/
def OptionSpec.orderKey (spec : OptionSpec) : String :=
  match spec.short with
  | some letter => letter.toLower.toString ++ (if letter.isLower then "0" else "1")
  | none => spec.name

/-- The columns that help texts are made for. -/
def helpWidth : Nat := 100

/-- Whether the descriptions of entries stand on lines of their own: if one of them does not fit
beside names that take more than two fifths of the width. -/
def needsOwnLines (entries : List HelpEntry) : Bool :=
  let taken := (entries.map fun entry => textWidth entry.name).foldl max 0 + 12
  helpWidth * 2 < taken * 5 && entries.any fun entry =>
    helpWidth - taken < textWidth (entry.text ++ entry.remark)

/-- The description of an entry on lines of its own. The blank line before a remark at length is
indented like the others. -/
def HelpEntry.ownLines (entry : HelpEntry) (long : Bool) : String :=
  let indent := "\n          "
  let widest := (entry.choices.map fun choice => choice.1.length).foldl max 0
  let choices := entry.choices.map fun (name, text) =>
    indent ++ "- " ++ name ++ ": " ++ "".pushn ' ' (widest - name.length) ++ text
  let listed :=
    if choices.isEmpty then "" else "\n" ++ indent ++ "Possible values:" ++ String.join choices
  let remark :=
    if long && !entry.remark.isEmpty then
      indent ++ indent ++ String.ofList (entry.remark.toList.drop 1)
    else entry.remark
  indent ++ entry.text ++ (if long then listed ++ remark else remark)

/-- Lists entries under a heading. -/
def helpSection (heading : String) (entries : List HelpEntry) (long : Bool) : String :=
  let widest := (entries.map fun entry => textWidth (entry.lead ++ entry.name)).foldl max 0
  let ownLines := long || needsOwnLines entries
  let renderEntry (entry : HelpEntry) : String :=
    let name := "  " ++ entry.lead ++ entry.name
    if ownLines then name ++ entry.ownLines long
    else
      name ++ "".pushn ' ' (widest - textWidth (entry.lead ++ entry.name)) ++ "  " ++ entry.text ++
        entry.remark
  heading ++ ":\n" ++ (if long then "\n\n" else "\n").intercalate (entries.map renderEntry) ++ "\n"

/-- What the request for help does. -/
def helpSummary : String := "Print this message or the help of the given subcommand(s)"

/-- The help text of the program of a name. -/
def programHelp (program : String) : String :=
  let commands := CommandName.all.map fun name =>
    ({ name := name.render, text := name.summary } : HelpEntry)
  let help : HelpEntry := { name := "help", text := helpSummary }
  let options := globalOptions ++ [helpOption, versionOption]
  programSummary program ++ "\n\nUsage: " ++ program ++ " [OPTIONS] <COMMAND>\n\n" ++
    helpSection "Commands" (commands ++ [help]) false ++ "\n" ++
    helpSection "Options" (options.map fun spec => spec.helpEntry false) false

/-- The help text of a command. Only commands with described values have a longer one. -/
def CommandName.help (program : String) (name : CommandName) (long : Bool) : String :=
  let hasLong := (name.options.map fun spec => spec.helpEntry true).any fun entry =>
    !entry.choices.isEmpty
  let long := long && hasLong
  let hint :=
    if !hasLong then ""
    else if long then " (see a summary with '-h')"
    else " (see more with '--help')"
  let help := { helpOption with help := helpOption.help ++ hint }
  let options := inTurn OptionSpec.orderKey name.options globalOptions ++ [help]
  let file : HelpEntry := { name := "<FILE>", text := "Path to the JSON program" }
  name.summary ++ "\n\nUsage: " ++ program ++ " " ++ name.render ++ " [OPTIONS] <FILE>\n\n" ++
    helpSection "Arguments" [file] long ++ "\n" ++
    helpSection "Options" (options.map fun spec => spec.helpEntry long) long

/-- The help text of the request for help. -/
def helpHelp (program : String) : String :=
  let command : HelpEntry := { name := "[COMMAND]...", text := "Print help for the subcommand(s)" }
  helpSummary ++ "\n\nUsage: " ++ program ++ " help [COMMAND]...\n\n" ++
    helpSection "Arguments" [command] false

/-- The help text about a topic. -/
def Topic.text (program : String) (topic : Topic) (long : Bool) : String :=
  match topic with
  | .program => programHelp program
  | .command name => name.help program long
  | .help => helpHelp program

end Cli

end Midend
