import Midend.Json.Value

/-! # Reading JSON text

Readers that take a value of a wanted shape off the front of a text. A text is read from left to
right and the first problem found is the answer, so a value of the wrong shape is reported before
any later ill-formed text. Lists and objects nest at most `maxNesting` deep, except in values that
are skipped unread. -/

namespace Midend

namespace Json

/-- Why a text could not be read. -/
inductive Problem where
  /-- The text is not JSON. -/
  | illFormed
  /-- The text is JSON so far, but of another shape than wanted. -/
  | wrongShape
  /-- The text ends too early. -/
  | endOfText
  deriving DecidableEq, Repr

/-- A reader of values of `α`: given how many more levels of nesting are allowed and a text, it
finds a value and the text after it, or the first problem. -/
abbrev Reader (α : Type) := (nesting : Nat) → List Char → Except Problem (α × List Char)

/-- Lists and objects may be nested this deep. -/
def maxNesting : Nat := 127

/-- Changes the value that was read, keeping the rest of the text. -/
def mapRead {α β : Type} (change : α → β) :
    Except Problem (α × List Char) → Except Problem (β × List Char)
  | .ok (value, rest) => .ok (change value, rest)
  | .error problem => .error problem

/-- Whether a character may stand between the parts of a document. -/
def isBlank (char : Char) : Bool := char == ' ' || char == '\n' || char == '\t' || char == '\r'

/-- The text after leading blanks. -/
def skipBlanks (text : List Char) : List Char := text.dropWhile isBlank

/-! ## Words -/

/-- The text after the rest of a word such as `null`. -/
def finishWord : (word : List Char) → List Char → Except Problem (List Char)
  | [], text => .ok text
  | _ :: _, [] => .error .endOfText
  | expected :: word, char :: text =>
    if char = expected then finishWord word text else .error .illFormed

/-! ## Numbers -/

/-- The number that decimal digits denote. -/
def digitsValue (digits : List Char) : Nat :=
  digits.foldl (fun value digit => value * 10 + (digit.toNat - '0'.toNat)) 0

/-- Takes a run of one or more digits. -/
def readDigits (text : List Char) : Except Problem (List Char × List Char) :=
  match text.takeWhile Char.isDigit, text.dropWhile Char.isDigit with
  | [], [] => .error .endOfText
  | [], _ :: _ => .error .illFormed
  | digits, rest => .ok (digits, rest)

/-- Takes the digits before the point; a leading zero stands alone. -/
def readWhole (text : List Char) : Except Problem (List Char × List Char) := do
  let (digits, rest) ← readDigits text
  match digits with
  | '0' :: _ :: _ => .error .illFormed
  | _ => .ok (digits, rest)

/-- Takes a fraction, if there is one. -/
def readFraction (text : List Char) : Except Problem (Option (List Char) × List Char) :=
  match text with
  | '.' :: rest => mapRead some (readDigits rest)
  | _ => .ok (none, text)

/-- Takes the digits of an exponent after its letter, with a sign or without. -/
def readSignedDigits (text : List Char) : Except Problem (Option Int × List Char) :=
  match text with
  | '+' :: rest => mapRead (fun digits => some (digitsValue digits : Int)) (readDigits rest)
  | '-' :: rest => mapRead (fun digits => some (-(digitsValue digits : Int))) (readDigits rest)
  | rest => mapRead (fun digits => some (digitsValue digits : Int)) (readDigits rest)

/-- Takes an exponent, if there is one. -/
def readExponent (text : List Char) : Except Problem (Option Int × List Char) :=
  match text with
  | 'e' :: rest => readSignedDigits rest
  | 'E' :: rest => readSignedDigits rest
  | _ => .ok (none, text)

/-- Appends digits to a significand as long as it stays below `2 ^ 64`; the second part is the
number of digits that are left out. -/
def appendDigits (significand : Nat) : List Char → Nat × Nat
  | [] => (significand, 0)
  | digit :: rest =>
    let longer := significand * 10 + (digit.toNat - '0'.toNat)
    if longer < Nat.pow 2 64 then appendDigits longer rest else (significand, rest.length + 1)

/-- The floating-point number that a sign, whole digits, fraction digits and an exponent denote.
Whole digits that are left out raise the exponent; fraction digits that are kept lower it. -/
def makeFloat? (negative : Bool) (whole fraction : List Char) (exponent : Int) : Option Binary64 :=
  let (significand, leftOut) := appendDigits 0 whole
  let (significand, ignored) := appendDigits significand fraction
  Binary64.ofDecimal? negative significand (exponent + leftOut + ignored - fraction.length)

/-- The number that a sign, whole digits, fraction digits and exponent denote. Without fraction and
exponent it is an integer if it fits 64 bits; a negative zero is not an integer. -/
def makeNumber? (negative : Bool) (whole : List Char) :
    Option (List Char) → Option Int → Option Number
  | none, none =>
    let magnitude := digitsValue whole
    if !negative && magnitude < Nat.pow 2 64 then some (.integer magnitude)
    else if negative && 0 < magnitude && magnitude ≤ Nat.pow 2 63 then
      some (.integer (-(magnitude : Int)))
    else (makeFloat? negative whole [] 0).map .float
  | fraction, exponent =>
    (makeFloat? negative whole (fraction.getD []) (exponent.getD 0)).map .float

/-- Takes a number after its sign. A number beyond the floating-point range is ill-formed. -/
def readNumber (negative : Bool) (text : List Char) : Except Problem (Number × List Char) := do
  let (whole, rest) ← readWhole text
  let (fraction, rest) ← readFraction rest
  let (exponent, rest) ← readExponent rest
  match makeNumber? negative whole fraction exponent with
  | some found => .ok (found, rest)
  | none => .error .illFormed

/-! ## Texts -/

/-- The value of a hexadecimal digit. -/
def hexValue? (char : Char) : Option Nat :=
  if char.isDigit then some (char.toNat - '0'.toNat)
  else if 'a' ≤ char ∧ char ≤ 'f' then some (char.toNat - 'a'.toNat + 10)
  else if 'A' ≤ char ∧ char ≤ 'F' then some (char.toNat - 'A'.toNat + 10)
  else none

/-- Takes the four hexadecimal digits of an escape. With fewer than four bytes left the text ends
too early, whatever they are. -/
def readHex (text : List Char) : Except Problem (Nat × List Char) :=
  match text with
  | first :: second :: third :: fourth :: rest =>
    match hexValue? first, hexValue? second, hexValue? third, hexValue? fourth with
    | some a, some b, some c, some d => .ok (((a * 16 + b) * 16 + c) * 16 + d, rest)
    | _, _, _, _ => .error .illFormed
  | short => if (String.ofList short).utf8ByteSize < 4 then .error .endOfText else .error .illFormed

/-- Whether a code unit opens a pair of surrogates. -/
def isHighSurrogate (unit : Nat) : Bool := 0xD800 ≤ unit && unit < 0xDC00

/-- Whether a code unit closes a pair of surrogates. -/
def isLowSurrogate (unit : Nat) : Bool := 0xDC00 ≤ unit && unit < 0xE000

/-- Takes the character of a `\u` escape, which may be a pair of surrogates. -/
def readCodePoint (text : List Char) : Except Problem (Char × List Char) := do
  let (unit, rest) ← readHex text
  if isHighSurrogate unit then
    match rest with
    | '\\' :: 'u' :: rest =>
      let (second, rest) ← readHex rest
      if isLowSurrogate second then
        .ok (Char.ofNat (0x10000 + (unit - 0xD800) * 0x400 + (second - 0xDC00)), rest)
      else .error .illFormed
    | ['\\'] => .error .endOfText
    | [] => .error .endOfText
    | _ => .error .illFormed
  else if isLowSurrogate unit then .error .illFormed
  else .ok (Char.ofNat unit, rest)

/-- The character that a one-letter escape stands for. -/
def simpleEscape? (char : Char) : Option Char :=
  match char with
  | '"' => some '"'
  | '\\' => some '\\'
  | '/' => some '/'
  | 'b' => some (Char.ofNat 8)
  | 'f' => some (Char.ofNat 12)
  | 'n' => some '\n'
  | 'r' => some '\r'
  | 't' => some '\t'
  | _ => none

/-- Takes the characters of a text up to its closing quote, at most `budget` of them; `read` holds
those taken so far, last one first. -/
def readCharacters : (budget : Nat) → (read : List Char) → List Char →
    Except Problem (String × List Char)
  | 0, _, _ => .error .endOfText
  | _ + 1, _, [] => .error .endOfText
  | _ + 1, read, '"' :: rest => .ok (String.ofList read.reverse, rest)
  | budget + 1, read, '\\' :: rest =>
    match rest with
    | [] => .error .endOfText
    | 'u' :: rest =>
      match readCodePoint rest with
      | .ok (char, rest) => readCharacters budget (char :: read) rest
      | .error problem => .error problem
    | letter :: rest =>
      match simpleEscape? letter with
      | some char => readCharacters budget (char :: read) rest
      | none => .error .illFormed
  | budget + 1, read, char :: rest =>
    if char.toNat < 32 then .error .illFormed else readCharacters budget (char :: read) rest

/-- Takes a text after its opening quote. -/
def readText (text : List Char) : Except Problem (String × List Char) :=
  readCharacters (text.length + 1) [] text

/-! ## Lists and objects -/

/-- Runs a reader one level deeper, or refuses when no further nesting is allowed. -/
def nested {α : Type} (nesting : Nat) (read : (nesting : Nat) → Except Problem (α × List Char)) :
    Except Problem (α × List Char) :=
  match nesting with
  | 0 => .error .illFormed
  | nesting + 1 => read nesting

/-- Where the next element of a list starts, if there is one. The first element needs no comma
before it, and a comma needs an element after it. -/
def nextElement (isFirst : Bool) (text : List Char) : Except Problem (Option (List Char)) :=
  match skipBlanks text with
  | [] => .error .endOfText
  | ']' :: _ => .ok none
  | ',' :: rest =>
    if isFirst then .ok (some (',' :: rest))
    else
      match skipBlanks rest with
      | [] => .error .endOfText
      | ']' :: _ => .error .illFormed
      | rest => .ok (some rest)
  | rest => if isFirst then .ok (some rest) else .error .illFormed

/-- Takes the closing bracket of a list. -/
def closeList (text : List Char) : Except Problem (List Char) :=
  match skipBlanks text with
  | ']' :: rest => .ok rest
  | [] => .error .endOfText
  | _ => .error .illFormed

/-- Takes elements up to the end of a list, at most `budget` of them. -/
def readElements {α : Type} (readElement : List Char → Except Problem (α × List Char)) :
    (budget : Nat) → (isFirst : Bool) → List Char → Except Problem (List α × List Char)
  | 0, _, _ => .error .endOfText
  | budget + 1, isFirst, text =>
    match nextElement isFirst text with
    | .error problem => .error problem
    | .ok none => .ok ([], text)
    | .ok (some text) =>
      match readElement text with
      | .error problem => .error problem
      | .ok (element, text) =>
        mapRead (element :: ·) (readElements readElement budget false text)

/-- Takes the elements of a list after its opening bracket, and the closing bracket. -/
def readListBody {α : Type} (readElement : List Char → Except Problem (α × List Char))
    (text : List Char) : Except Problem (List α × List Char) := do
  let (elements, text) ← readElements readElement (text.length + 1) true text
  let text ← closeList text
  .ok (elements, text)

/-- Takes the name of the next member of an object, if there is one. The first member needs no
comma before it, and a comma needs a member after it. -/
def nextMember (isFirst : Bool) (text : List Char) : Except Problem (Option (String × List Char)) :=
  match skipBlanks text with
  | [] => .error .endOfText
  | '\x7d' :: _ => .ok none
  | ',' :: rest =>
    if isFirst then .error .illFormed
    else
      match skipBlanks rest with
      | [] => .error .endOfText
      | '"' :: rest => (readText rest).map some
      | _ => .error .illFormed
  | '"' :: rest => if isFirst then (readText rest).map some else .error .illFormed
  | _ => .error .illFormed

/-- Takes the colon between a member's name and its value. -/
def readColon (text : List Char) : Except Problem (List Char) :=
  match skipBlanks text with
  | ':' :: rest => .ok rest
  | [] => .error .endOfText
  | _ => .error .illFormed

/-- Takes the closing brace of an object. -/
def closeObject (text : List Char) : Except Problem (List Char) :=
  match skipBlanks text with
  | '\x7d' :: rest => .ok rest
  | [] => .error .endOfText
  | _ => .error .illFormed

/-- Takes members up to the end of an object, at most `budget` of them. `start` sees a member's name
and what the object has given so far, and yields the reader of the member's value. -/
def readMembers {σ : Type}
    (start : String → σ → Except Problem (List Char → Except Problem (σ × List Char))) :
    (budget : Nat) → (isFirst : Bool) → σ → List Char → Except Problem (σ × List Char)
  | 0, _, _, _ => .error .endOfText
  | budget + 1, isFirst, state, text =>
    match nextMember isFirst text with
    | .error problem => .error problem
    | .ok none => .ok (state, text)
    | .ok (some (name, text)) =>
      match start name state with
      | .error problem => .error problem
      | .ok readValue =>
        match readColon text with
        | .error problem => .error problem
        | .ok text =>
          match readValue text with
          | .error problem => .error problem
          | .ok (state, text) => readMembers start budget false state text

/-! ## Documents -/

/-- Takes any document. -/
def readAny : Reader Json
  | nesting, text =>
    match skipBlanks text with
    | [] => .error .endOfText
    | 'n' :: rest => do .ok (.null, ← finishWord ['u', 'l', 'l'] rest)
    | 't' :: rest => do .ok (.bool true, ← finishWord ['r', 'u', 'e'] rest)
    | 'f' :: rest => do .ok (.bool false, ← finishWord ['a', 'l', 's', 'e'] rest)
    | '"' :: rest => mapRead .string (readText rest)
    | '-' :: rest => mapRead .number (readNumber true rest)
    | '[' :: rest =>
      match nesting with
      | 0 => .error .illFormed
      | nesting + 1 => mapRead .array (readListBody (readAny nesting) rest)
    | '\x7b' :: rest =>
      match nesting with
      | 0 => .error .illFormed
      | nesting + 1 => do
        let start (name : String) (members : List (String × Json)) :
            Except Problem (List Char → Except Problem ((List (String × Json)) × List Char)) :=
          .ok fun text => mapRead (fun value => (name, value) :: members) (readAny nesting text)
        let (members, text) ← readMembers start (rest.length + 1) true [] rest
        .ok (.object members.reverse, ← closeObject text)
    | char :: rest =>
      if char.isDigit then mapRead .number (readNumber false (char :: rest)) else .error .illFormed

/-- Finds the problem with a value of another shape than wanted: an ill-formed first token counts
before the shape. -/
def refuse {α : Type} (text : List Char) : Except Problem (α × List Char) :=
  match skipBlanks text with
  | '[' :: _ => .error .wrongShape
  | '\x7b' :: _ => .error .wrongShape
  | text =>
    match readAny 0 text with
    | .ok _ => .error .wrongShape
    | .error problem => .error problem

/-! ## Skipped values -/

/-- The text after a skipped text's closing quote, at most `budget` characters on. Escapes must be
well-formed, but need not denote characters. -/
def skipCharacters : (budget : Nat) → List Char → Except Problem (List Char)
  | 0, _ => .error .endOfText
  | _ + 1, [] => .error .endOfText
  | _ + 1, '"' :: rest => .ok rest
  | budget + 1, '\\' :: rest =>
    match rest with
    | [] => .error .endOfText
    | 'u' :: rest =>
      match readHex rest with
      | .ok (_, rest) => skipCharacters budget rest
      | .error problem => .error problem
    | letter :: rest =>
      if (simpleEscape? letter).isSome then skipCharacters budget rest else .error .illFormed
  | budget + 1, char :: rest =>
    if char.toNat < 32 then .error .illFormed else skipCharacters budget rest

/-- The text after a skipped text. -/
def skipText (text : List Char) : Except Problem (List Char) :=
  skipCharacters (text.length + 1) text

/-- The text after a skipped number, whatever its size. An incomplete number is ill-formed even at
the end of the text. -/
def skipNumber (text : List Char) : Except Problem (List Char) :=
  let parts : Except Problem (List Char) := do
    let (_, rest) ← readWhole text
    let (_, rest) ← readFraction rest
    let (_, rest) ← readExponent rest
    .ok rest
  match parts with
  | .ok rest => .ok rest
  | .error _ => .error .illFormed

/-- The text after a member's name and colon. -/
def skipName (text : List Char) : Except Problem (List Char) :=
  match skipBlanks text with
  | [] => .error .endOfText
  | '"' :: rest => do readColon (← skipText rest)
  | _ => .error .illFormed

/-- What surrounds a skipped value. -/
inductive Enclosing where
  /-- A list. -/
  | list
  /-- An object. -/
  | object
  deriving DecidableEq, Repr

/-- The text after a skipped value inside the given enclosing lists and objects, innermost first, up
to the end of the outermost one. With `isFirst` the innermost one has just been opened; otherwise
one of its values has just ended. At most `budget` steps are taken. -/
def skipWithin : (budget : Nat) → (isFirst : Bool) → List Enclosing → List Char →
    Except Problem (List Char)
  | 0, _, _, _ => .error .endOfText
  | _ + 1, _, [], text => .ok text
  | budget + 1, isFirst, innermost :: outer, text =>
    let value (text : List Char) : Except Problem (List Char) :=
      match skipBlanks text with
      | [] => .error .endOfText
      | 'n' :: rest => do
        skipWithin budget false (innermost :: outer) (← finishWord ['u', 'l', 'l'] rest)
      | 't' :: rest => do
        skipWithin budget false (innermost :: outer) (← finishWord ['r', 'u', 'e'] rest)
      | 'f' :: rest => do
        skipWithin budget false (innermost :: outer) (← finishWord ['a', 'l', 's', 'e'] rest)
      | '"' :: rest => do skipWithin budget false (innermost :: outer) (← skipText rest)
      | '-' :: rest => do skipWithin budget false (innermost :: outer) (← skipNumber rest)
      | '[' :: rest => skipWithin budget true (.list :: innermost :: outer) rest
      | '\x7b' :: rest => skipWithin budget true (.object :: innermost :: outer) rest
      | char :: rest =>
        if char.isDigit then do
          skipWithin budget false (innermost :: outer) (← skipNumber (char :: rest))
        else .error .illFormed
    let item (text : List Char) : Except Problem (List Char) :=
      match innermost with
      | .list => value text
      | .object => do value (← skipName text)
    match skipBlanks text with
    | [] => .error .endOfText
    | ',' :: rest => if isFirst then .error .illFormed else item rest
    | char :: rest =>
      if (innermost = .list ∧ char = ']') ∨ (innermost = .object ∧ char = '\x7d') then
        skipWithin budget false outer rest
      else if isFirst then item (char :: rest)
      else .error .illFormed

/-- The text after a value of any shape and depth that is not read. -/
def skipValue (text : List Char) : Except Problem (List Char) :=
  match skipBlanks text with
  | '[' :: rest => skipWithin (2 * text.length + 1) true [.list] rest
  | '\x7b' :: rest => skipWithin (2 * text.length + 1) true [.object] rest
  | '"' :: rest => skipText rest
  | '-' :: rest => skipNumber rest
  | char :: rest =>
    if char.isDigit then skipNumber (char :: rest)
    else do
      let (_, rest) ← readAny 0 (char :: rest)
      .ok rest
  | [] => .error .endOfText

/-! ## Shapes -/

/-- Takes a text. -/
def Reader.string : Reader String := fun _ text =>
  match skipBlanks text with
  | '"' :: rest => readText rest
  | _ => refuse text

/-- Takes a truth value. -/
def Reader.bool : Reader Bool := fun _ text =>
  match skipBlanks text with
  | 't' :: rest => do .ok (true, ← finishWord ['r', 'u', 'e'] rest)
  | 'f' :: rest => do .ok (false, ← finishWord ['a', 'l', 's', 'e'] rest)
  | _ => refuse text

/-- Takes a natural number below a limit. -/
def Reader.natural (limit : Nat) : Reader Nat := fun _ text =>
  match skipBlanks text with
  | [] => .error .endOfText
  | char :: rest =>
    if char.isDigit then do
      let (found, rest) ← readNumber false (char :: rest)
      match found with
      | .integer value => if value < limit then .ok (value.toNat, rest) else .error .wrongShape
      | .float _ => .error .wrongShape
    else refuse text

/-- Takes any document that `interpret` accepts. -/
def Reader.interpreted {α : Type} (interpret : Json → Option α) : Reader α := fun nesting text => do
  let (document, rest) ← readAny nesting text
  match interpret document with
  | some value => .ok (value, rest)
  | none => .error .wrongShape

/-- Takes a value, or `null` in its place. -/
def Reader.optional {α : Type} (read : Reader α) : Reader (Option α) := fun nesting text =>
  match skipBlanks text with
  | 'n' :: rest => do .ok (none, ← finishWord ['u', 'l', 'l'] rest)
  | _ => mapRead some (read nesting text)

/-- Takes a list of values. -/
def Reader.list {α : Type} (read : Reader α) : Reader (List α) := fun nesting text =>
  match skipBlanks text with
  | '[' :: rest => nested nesting fun nesting => readListBody (read nesting) rest
  | _ => refuse text

/-- A field of a record of type `σ`. -/
structure Field (σ : Type) where
  /-- The name of the field's member in an object. -/
  name : String
  /-- Reads the field's value and puts it into the record. -/
  read : Reader (σ → σ)
  /-- Whether the record is incomplete without the field. -/
  required : Bool

/-- A field whose value is put into the record by `put`. -/
def Field.of {σ α : Type} (name : String) (read : Reader α) (put : α → σ → σ)
    (required : Bool := false) : Field σ :=
  ⟨name, fun nesting text => mapRead put (read nesting text), required⟩

/-- Reads the elements of a list, up to its end, into the given fields in turn. -/
def readPositional {σ : Type} (nesting : Nat) :
    (fields : List (Field σ)) → (isFirst : Bool) → σ → List Char → Except Problem (σ × List Char)
  | [], _, record, text => .ok (record, text)
  | field :: fields, isFirst, record, text =>
    match nextElement isFirst text with
    | .error problem => .error problem
    | .ok none =>
      if field.required then .error .wrongShape
      else readPositional nesting fields isFirst record text
    | .ok (some text) =>
      match field.read nesting text with
      | .error problem => .error problem
      | .ok (put, text) => readPositional nesting fields false (put record) text

/-- How a member of a record is read: once at most if it is a field, and skipped if not. The state
is the record so far and the names of the fields it has. -/
def startMember {σ : Type} (nesting : Nat) (fields : List (Field σ)) (name : String)
    (state : σ × List String) :
    Except Problem (List Char → Except Problem ((σ × List String) × List Char)) :=
  match fields.find? (·.name == name) with
  | some field =>
    if state.2.contains name then .error .wrongShape
    else .ok fun text =>
      mapRead (fun put => (put state.1, name :: state.2)) (field.read nesting text)
  | none => .ok fun text => do .ok (state, ← skipValue text)

/-- Takes a record, written as an object with its fields as members in any order, or as a list of
its fields in their order. Fields that are not required may be absent. -/
def Reader.record {σ : Type} (blank : σ) (fields : List (Field σ)) : Reader σ :=
  fun nesting text =>
    match skipBlanks text with
    | '[' :: rest => nested nesting fun nesting => do
      let (record, text) ← readPositional nesting fields true blank rest
      .ok (record, ← closeList text)
    | '\x7b' :: rest => nested nesting fun nesting => do
      let ((record, given), text) ←
        readMembers (startMember nesting fields) (rest.length + 1) true (blank, []) rest
      if fields.all fun field => !field.required || given.contains field.name then
        .ok (record, ← closeObject text)
      else .error .wrongShape
    | _ => refuse text

/-- Reads a whole text: a value with nothing but blanks around it. -/
def Reader.run {α : Type} (read : Reader α) (text : String) : Except Problem α := do
  let (value, rest) ← read maxNesting text.toList
  if (skipBlanks rest).isEmpty then .ok value else .error .illFormed

/-- Reads a text as a document. -/
def parse (text : String) : Except Problem Json := Reader.run readAny text

end Json

end Midend
