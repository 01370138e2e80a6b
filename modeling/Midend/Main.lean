import Midend.Cli.Run

/-! # The program

Reads the files that the arguments name, runs the command, and prints and writes what it yields. -/

namespace Midend

/-- The contents of a file, if it can be read. -/
def readFile? (path : String) : IO (Option String) := do
  try
    return some (← IO.FS.readFile path)
  catch _ => return none

/-- Reads the files that an invocation needs. -/
def readInputs (args : List String) : IO (List (String × Option String)) := do
  match Cli.Invocation.ofArgs args with
  | .ok invocation => invocation.inputs.mapM fun path => return (path, ← readFile? path)
  | .error _ => return []

/-- Writes files; answers the first one that cannot be written. -/
def writeFiles : List (String × String) → IO (Option String)
  | [] => return none
  | (path, content) :: rest => do
    try
      IO.FS.writeFile path content
    catch _ => return some path
    writeFiles rest

end Midend

open Midend in
/-- Runs the command that the arguments ask for. -/
def main (args : List String) : IO UInt32 := do
  let program := (← IO.appPath).fileStem.getD "midend"
  let inputs ← readInputs args
  let output := Cli.run program args fun path => (inputs.lookup path).join
  let output := ((← writeFiles output.files).map Cli.Output.unwritable).getD output
  IO.print output.text
  if let some error := output.error then IO.eprintln ("Error: " ++ error)
  return output.status.toUInt32
