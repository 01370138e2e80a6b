import Midend.Sorted.Set

/-! # Events

What analyses and transformations report about their work. A log is a list of events in the order
in which they were recorded; `Statistics` counts what a log says was changed. -/

namespace Midend

/-- What an event reports. -/
inductive Event.Kind where
  /-- An instruction was replaced by a constant. -/
  | constantFolded
  /-- An operand was replaced by an earlier variable of the same value. -/
  | copyPropagated
  /-- An instruction was replaced by a copy of an earlier result. -/
  | expressionReused
  /-- A merge was added. -/
  | phiInserted
  /-- A merge was replaced by a constant or a copy. -/
  | phiSimplified
  /-- An undefined value was added. -/
  | undefInserted
  /-- An instruction was removed. -/
  | instructionRemoved
  /-- A block was removed. -/
  | blockRemoved
  /-- An entry block was added. -/
  | entryInserted
  /-- A terminator was added. -/
  | terminatorInserted
  /-- A block was added on an edge. -/
  | edgeSplit
  /-- Two variables were merged into one. -/
  | copyCoalesced
  /-- A pass is about to run. -/
  | passStarted
  /-- A pass has run. -/
  | passCompleted
  /-- Something worth knowing. -/
  | info
  /-- Something suspicious. -/
  | warning
  /-- Something that failed. -/
  | error
  deriving DecidableEq, Repr

namespace Event.Kind

/-- All kinds of events. -/
def all : List Kind :=
  [.constantFolded, .copyPropagated, .expressionReused, .phiInserted, .phiSimplified,
    .undefInserted, .instructionRemoved, .blockRemoved, .entryInserted, .terminatorInserted,
    .edgeSplit, .copyCoalesced, .passStarted, .passCompleted, .info, .warning, .error]

/-- The wording of a kind. -/
def description : Kind → String
  | .constantFolded => "constant folded"
  | .copyPropagated => "copy propagated"
  | .expressionReused => "expression reused"
  | .phiInserted => "phi inserted"
  | .phiSimplified => "phi simplified"
  | .undefInserted => "undef inserted"
  | .instructionRemoved => "instruction removed"
  | .blockRemoved => "block removed"
  | .entryInserted => "entry inserted"
  | .terminatorInserted => "terminator inserted"
  | .edgeSplit => "edge split"
  | .copyCoalesced => "copy coalesced"
  | .passStarted => "pass started"
  | .passCompleted => "pass completed"
  | .info => "info"
  | .warning => "warning"
  | .error => "error"

/-- The kind of a wording. -/
def ofDescription? (text : String) : Option Kind := all.find? fun kind => kind.description == text

/-- Whether the kind only informs. -/
def isDiagnostic : Kind → Bool
  | .info | .warning | .error => true
  | _ => false

/-- Whether the kind reports a change of the code. -/
def isTransformation : Kind → Bool
  | .passStarted | .passCompleted | .info | .warning | .error => false
  | _ => true

end Event.Kind

/-- A report about some work. -/
structure Event where
  /-- What is reported. -/
  kind : Event.Kind
  /-- The function concerned. -/
  function : Option String := none
  /-- The block concerned. -/
  block : Option String := none
  /-- The pass at work. -/
  pass : Option String := none
  /-- The details; the wording of the kind unless something else is said. -/
  message : String := kind.description
  deriving DecidableEq, Repr

/-- Events in the order in which they were recorded. -/
abbrev Log := List Event

namespace Event

/-- The text of an event. A block is shown with its function only. -/
def render (event : Event) : String :=
  let pass := match event.pass with
    | some pass => " " ++ pass
    | none => ""
  let place := match event.function, event.block with
    | some function, some block => " @" ++ function ++ "." ++ block
    | some function, none => " @" ++ function
    | none, _ => ""
  "[" ++ event.kind.description ++ "]" ++ pass ++ place ++ ": " ++ event.message

end Event

namespace Log

/-- The events of a kind. -/
def ofKind (log : Log) (kind : Event.Kind) : Log := log.filter fun event => event.kind = kind

/-- The number of events of a kind. -/
def countKind (log : Log) (kind : Event.Kind) : Nat := log.countP fun event => event.kind = kind

/-- The kinds that occur, with the number of their events. -/
def counts (log : Log) : List (Event.Kind × Nat) :=
  (Event.Kind.all.map fun kind => (kind, log.countKind kind)).filter fun entry => entry.2 ≠ 0

/-- The events that concern a function. -/
def ofFunction (log : Log) (function : String) : Log :=
  log.filter fun event => event.function = some function

/-- The events by function name, those without a function first, otherwise in their order: a listing
that does not depend on the order in which functions were worked on. -/
def byFunction (log : Log) : Log :=
  let (general, specific) := log.partition fun event => event.function.isNone
  general ++ sortBy (fun left right => left.function.getD "" ≤ right.function.getD "") specific

/-- The number of functions whose code was changed. -/
def functionsAffected (log : Log) : Nat :=
  (SortedSet.ofList ((log.filter fun event => event.kind.isTransformation).filterMap
    Event.function)).size

/-- A line that counts the changes of each kind. -/
def summary (log : Log) : String :=
  let changes := log.counts.filter fun entry => entry.1.isTransformation
  if log.isEmpty then "no events"
  else if changes.isEmpty then toString log.length ++ " events"
  else ", ".intercalate (changes.map fun entry =>
    toString entry.2 ++ " " ++ entry.1.description)

end Log

end Midend
