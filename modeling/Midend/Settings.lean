import Midend.Dataflow.Solver
import Midend.Error
import Midend.Pass

/-! # Settings

Which passes run, how long they may go on, and which registers there are, with their JSON form. -/

namespace Midend

/-- The registers that are used unless others are named. -/
def defaultRegisters : List String :=
  ["t0", "t1", "t2", "t3", "t4", "t5", "t6", "s1", "s2", "s3", "s4", "s5", "s6", "s7", "s8", "s9",
    "s10", "s11", "a2", "a3", "a4", "a5", "a6", "a7"]

/-- What an optimizer does. -/
structure Settings where
  /-- Whether the passes run on code in single assignment. -/
  ssa : Bool := true
  /-- Whether values are numbered within blocks. -/
  lvn : Bool := true
  /-- Whether values are numbered across blocks, which needs single assignment. -/
  gvn : Bool := true
  /-- Whether dead code is removed. -/
  dce : Bool := true
  /-- The limit on rounds of passes. -/
  roundLimit : Nat := 16
  /-- The limit on visits of a block by a dataflow analysis. -/
  visitLimit : Nat := Analysis.defaultVisitsPerBlock
  /-- The registers in order of preference. -/
  registers : List String := defaultRegisters
  /-- Whether the functions of a program may be worked on at the same time. -/
  parallel : Bool := true
  deriving DecidableEq, Repr

namespace Settings

/-- Only the way into single assignment and back. -/
def minimal : Settings := { lvn := false, gvn := false, dce := false }

/-- All passes with generous limits. -/
def aggressive : Settings :=
  { roundLimit := 64, visitLimit := 4 * Analysis.defaultVisitsPerBlock }

/-- Whether any pass is asked for. -/
def hasPasses (settings : Settings) : Bool := settings.lvn || settings.gvn || settings.dce

/-- The passes that are asked for and can be run, with the limit on their rounds. -/
def schedule (settings : Settings) : Schedule where
  passes :=
    (if settings.lvn then [.localNumbering] else []) ++
    (if settings.gvn && settings.ssa then [.globalNumbering] else []) ++
    (if settings.dce then [.deadCode none] else [])
  limit := settings.roundLimit

/-! ## JSON -/

open Json (Reader)

/-- Numbers in settings stay below this one. -/
def countLimit : Nat := Nat.pow 2 64

/-- Reads settings; what is not said is as usual. -/
def reader : Reader Settings :=
  Reader.record {}
    [ .of "ssa" .bool fun ssa settings => { settings with ssa },
      .of "lvn" .bool fun lvn settings => { settings with lvn },
      .of "gvn" .bool fun gvn settings => { settings with gvn },
      .of "dce" .bool fun dce settings => { settings with dce },
      .of "max_pass_iterations" (.natural countLimit) fun roundLimit settings =>
        { settings with roundLimit },
      .of "max_dataflow_iterations_per_block" (.natural countLimit) fun visitLimit settings =>
        { settings with visitLimit },
      .of "registers" (.list .string) fun registers settings => { settings with registers },
      .of "parallel" .bool fun parallel settings => { settings with parallel } ]

/-- Reads settings from a JSON text. -/
def ofJson (text : String) : Except Error Settings :=
  match reader.run text with
  | .ok settings => .ok settings
  | .error problem => .error (.json problem)

/-- Settings as JSON. -/
def toJson (settings : Settings) : Json :=
  .object
    [ ("ssa", .bool settings.ssa), ("lvn", .bool settings.lvn), ("gvn", .bool settings.gvn),
      ("dce", .bool settings.dce), ("max_pass_iterations", .ofNat settings.roundLimit),
      ("max_dataflow_iterations_per_block", .ofNat settings.visitLimit),
      ("registers", .ofStrings settings.registers), ("parallel", .bool settings.parallel) ]

end Settings

end Midend
