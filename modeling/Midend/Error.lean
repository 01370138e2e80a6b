import Midend.Json.Reader

/-! # Errors

What can go wrong when code is read, analysed or transformed, and the wording of each cause. -/

namespace Midend

/-- Why code could not be read, analysed or transformed. -/
inductive Error where
  /-- The code breaks a rule of the intermediate code. -/
  | malformed (message : String)
  /-- A block was named that is not there. -/
  | unknownBlock (name : String)
  /-- A function was named that is not there. -/
  | functionNotFound (name : String)
  /-- An iteration did not settle within its limit. -/
  | nonConvergence (analysis : String) (iterations : Nat)
  /-- There are fewer registers than a function needs; `remaining` variables got none. -/
  | allocationFailed (function : String) (remaining : List String)
  /-- A function failed for the given reason. -/
  | functionFailed (function : String) (cause : Error)
  /-- A text could not be read as JSON. -/
  | json (problem : Json.Problem)
  /-- There is no further sequence key for a new instruction. -/
  | keysExhausted
  deriving DecidableEq, Repr

namespace Error

/-- The wording of an error. -/
def message : Error → String
  | .malformed message => "Malformed - " ++ message
  | .unknownBlock name => "Unknown block - " ++ name
  | .functionNotFound name => "Function not found - " ++ name
  | .nonConvergence analysis iterations =>
    analysis ++ " did not converge after " ++ toString iterations ++ " iterations"
  | .allocationFailed function remaining =>
    "Could not allocate registers for '" ++ function ++ "': " ++ toString remaining.length ++
      " variables need a spill"
  | .functionFailed function cause => "Function '" ++ function ++ "' failed: " ++ cause.message
  | .json .illFormed => "ill-formed JSON"
  | .json .wrongShape => "unexpected JSON value"
  | .json .endOfText => "unexpected end of JSON text"
  | .keysExhausted => "no sequence key is left"

/-- Says in which function an error arose, unless it says so already. -/
def inFunction (error : Error) (function : String) : Error :=
  match error with
  | .functionFailed _ _ => error
  | _ => .functionFailed function error

/-- Whether an error ends the work on the whole program and not only on one function. -/
def isFatal : Error → Bool
  | .keysExhausted => true
  | _ => false

end Error

end Midend
