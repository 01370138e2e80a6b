import Midend.Dataflow.Solver

/-! # Live variables

A variable is live where its value may still be read. The analysis runs backward; an argument of a
merge is read at the end of the block that it comes from, not in the block of the merge. -/

namespace Midend

namespace Liveness

/-- The live variables before an instruction, given those after it. The arguments of a merge are
left to the edges. -/
def stepBack (instr : Instr) (live : SortedSet String) : SortedSet String :=
  let live := match instr.dest? with
    | some dest => live.erase dest
    | none => live
  if instr.isPhi then live else instr.args.foldl .insert live

/-- The live variables before a list of instructions, given those after it. -/
def stepBackAll (instrs : List Instr) (live : SortedSet String) : SortedSet String :=
  instrs.foldr stepBack live

/-- The arguments that the leading merges of a block take from another block. -/
def phiReads (source : String) (target : Block) : List String :=
  target.phis.flatMap fun phi =>
    (phi.incoming.filter fun (label, _) => label = source).map Prod.snd

/-- Live variables as an analysis. -/
def analysis : Analysis (SortedSet String) where
  name := "liveness"
  direction := .backward
  boundary := .empty
  initial := .empty
  merge := fun states => states.foldl .union .empty
  transfer := fun block live => stepBackAll block.instrs live
  edge := fun source target live => (phiReads source.name target).foldl .insert live

/-- The live variables after each of a list of instructions, given those after the last one. -/
def afterEach : List Instr → SortedSet String → List (SortedSet String)
  | [], _ => []
  | _ :: rest, live => stepBackAll rest live :: afterEach rest live

/-- The variables that a block reads before it writes them, merges left out: scans forward with what
is written and read so far. -/
def upwardExposedFrom (written read : SortedSet String) : List Instr → SortedSet String
  | [] => read
  | instr :: rest =>
    if instr.isPhi then upwardExposedFrom written read rest
    else
      let read := (instr.args.filter fun arg => !written.contains arg).foldl .insert read
      upwardExposedFrom (instr.dest?.toList.foldl .insert written) read rest

/-- The variables that a block reads before it writes them, merges left out. -/
def upwardExposed (block : Block) : SortedSet String :=
  upwardExposedFrom .empty .empty block.instrs

end Liveness

end Midend
