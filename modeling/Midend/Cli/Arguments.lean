import Midend.Json.Reader

/-! # Command-line arguments

What a command accepts is described by options; `collect` sorts arguments into options and other
words. The first argument that makes no sense, or that asks for help or the version, decides the
outcome. A value in an argument of its own is checked when the next argument has to be sorted, or
when there is none; a word that ends the options leaves it unchecked. -/

namespace Midend

namespace Cli

/-- What the value of an option may be, with the word that stands for it in help texts. -/
inductive ValueKind where
  /-- Any text. -/
  | text (placeholder : String)
  /-- The name of a file. -/
  | path (placeholder : String)
  /-- A number of 64 bits. -/
  | natural (placeholder : String)
  /-- One of several words, each with a description, which may be empty. -/
  | choice (placeholder : String) (choices : List (String × String))
  deriving DecidableEq, Repr

/-- The number that a text of decimal digits denotes, if it fits 64 bits. A plus sign may precede
it. -/
def natural? (text : String) : Option Nat :=
  let digits := match text.toList with
    | '+' :: rest => rest
    | all => all
  if digits.isEmpty || !digits.all Char.isDigit then none
  else
    let value := Json.digitsValue digits
    if value < Nat.pow 2 64 then some value else none

namespace ValueKind

/-- The word that stands for a value in help texts. -/
def placeholder : ValueKind → String
  | .text placeholder | .path placeholder | .natural placeholder | .choice placeholder _ =>
    placeholder

/-- Whether a text is a value of a kind. -/
def accepts : ValueKind → String → Bool
  | .text _, _ => true
  | .path _, value => !value.isEmpty
  | .natural _, value => (natural? value).isSome
  | .choice _ choices, value => choices.any fun choice => choice.1 == value

end ValueKind

/-- An option of a command. -/
structure OptionSpec where
  /-- The name, which follows two dashes. -/
  name : String
  /-- The letter that may follow a single dash instead. -/
  short : Option Char := none
  /-- What its value may be, if it has one. -/
  value : Option ValueKind := none
  /-- What it does. -/
  help : String
  /-- The value that it has if it is not given. -/
  fallback : Option String := none
  /-- Whether it may be given several times. -/
  repeatable : Bool := false
  deriving DecidableEq, Repr

/-- Why arguments do not say what to do. -/
inductive Stop where
  /-- They make no sense. -/
  | usage
  /-- They ask for the version. -/
  | version
  /-- They ask for help, at length or not. -/
  | help (long : Bool)
  deriving DecidableEq, Repr

/-- Asks for help. -/
def helpOption : OptionSpec := { name := "help", short := some 'h', help := "Print help" }

/-- Asks for the version. -/
def versionOption : OptionSpec := { name := "version", short := some 'V', help := "Print version" }

/-- The arguments so far: options with their values, flags without one, and other words. -/
structure Given where
  /-- The options in order. -/
  options : List (String × Option String) := []
  /-- The other words in order. -/
  words : List String := []
  deriving DecidableEq, Repr

namespace Given

/-- Whether an option was given. -/
def has (given : Given) (name : String) : Bool := given.options.any fun option => option.1 == name

/-- The values of an option in order. -/
def values (given : Given) (name : String) : List String :=
  given.options.filterMap fun option => if option.1 == name then option.2 else none

/-- The value of an option. -/
def value? (given : Given) (name : String) : Option String := (given.values name).head?

/-- Adds an option, unless it was given before and may be given only once. -/
def add (given : Given) (spec : OptionSpec) (value : Option String) : Except Stop Given :=
  if given.has spec.name && !spec.repeatable then .error .usage
  else .ok { given with options := given.options ++ [(spec.name, value)] }

/-- Adds an option without a value. Help and version are asked for by such an option. -/
def addFlag (given : Given) (spec : OptionSpec) (isShort : Bool) : Except Stop Given :=
  if spec = helpOption then .error (.help !isShort)
  else if spec = versionOption then .error .version
  else given.add spec none

/-- Adds an option with a value, if the option accepts it. -/
def addValue (given : Given) (spec : OptionSpec) (kind : ValueKind) (value : String) :
    Except Stop Given :=
  if kind.accepts value then given.add spec (some value) else .error .usage

end Given

/-- What an argument leaves open. -/
inductive Pending where
  /-- Nothing. -/
  | nothing
  /-- The value of an option, which the next argument gives. -/
  | value (spec : OptionSpec) (kind : ValueKind)
  /-- Whether an option accepts the value that it was given. -/
  | check (spec : OptionSpec) (kind : ValueKind) (text : String)
  deriving DecidableEq, Repr

/-- Settles what is left open, when no argument can give a value any more. -/
def Pending.settle (pending : Pending) (given : Given) : Except Stop Given :=
  match pending with
  | .nothing => .ok given
  | .value _ _ => .error .usage
  | .check spec kind text => given.addValue spec kind text

/-- Adds an option with the value that its own argument gives, if it gives one. -/
def addNamed (given : Given) (spec : OptionSpec) (value : Option String) :
    Except Stop (Given × Pending) :=
  match spec.value, value with
  | none, none => (given.addFlag spec false).map (·, .nothing)
  | none, some _ => .error .usage
  | some kind, some value => (given.addValue spec kind value).map (·, .nothing)
  | some kind, none => .ok (given, .value spec kind)

/-- Reads what follows two dashes: the name of an option, and its value after an equals sign. -/
def readLong (specs : List OptionSpec) (body : List Char) (given : Given) :
    Except Stop (Given × Pending) :=
  let name := body.takeWhile (· ≠ '=')
  let value := match body.dropWhile (· ≠ '=') with
    | _ :: value => some (String.ofList value)
    | [] => none
  match specs.find? fun spec => spec.name == String.ofList name with
  | some spec => addNamed given spec value
  | none => .error .usage

/-- Reads what follows a single dash: letters of options, the last of which may have the rest as its
value. -/
def readShort (specs : List OptionSpec) : List Char → Given → Except Stop (Given × Pending)
  | [], given => .ok (given, .nothing)
  | letter :: rest, given =>
    match specs.find? fun spec => spec.short == some letter with
    | none => .error .usage
    | some spec =>
      match spec.value with
      | none => do
        let given ← given.addFlag spec true
        readShort specs rest given
      | some kind =>
        match rest with
        | [] => .ok (given, .value spec kind)
        | '=' :: value => (given.addValue spec kind (String.ofList value)).map (·, .nothing)
        | value => (given.addValue spec kind (String.ofList value)).map (·, .nothing)

/-- Adds a word that is no option, if there may be one more. -/
def addWord (maxWords : Nat) (given : Given) (word : String) : Except Stop Given :=
  if given.words.length < maxWords && !word.isEmpty then
    .ok { given with words := given.words ++ [word] }
  else .error .usage

/-- Sorts arguments into options and at most `maxWords` other words. With `maxWords` zero the first
other word ends the options; it is answered with all that follows it, and with what is left open. -/
def collect (specs : List OptionSpec) (maxWords : Nat) :
    List String → Given → Pending → Except Stop (Given × Pending × List String)
  | [], given, pending => (pending.settle given).map (·, .nothing, [])
  | arg :: rest, given, pending =>
    match arg.toList, pending with
    | ['-', '-'], pending => do
      let given ← pending.settle given
      if maxWords = 0 then .error .usage
      else (rest.foldlM (addWord maxWords) given).map (·, .nothing, [])
    | '-' :: '-' :: body, pending => do
      let (given, pending) ← readLong specs body (← pending.settle given)
      collect specs maxWords rest given pending
    | '-' :: letter :: body, pending => do
      let (given, pending) ← readShort specs (letter :: body) (← pending.settle given)
      collect specs maxWords rest given pending
    | _, .value spec kind => collect specs maxWords rest given (.check spec kind arg)
    | _, pending =>
      if maxWords = 0 then .ok (given, pending, arg :: rest)
      else do
        let given ← addWord maxWords (← pending.settle given) arg
        collect specs maxWords rest given .nothing

end Cli

end Midend
