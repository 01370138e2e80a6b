import Midend.Decimal
import Midend.Sorted.Map

/-! # JSON values

A JSON document as a value, and its text. Objects keep their members as written, repeated names
included; `Json.canonical` gives every name the last of its values and sorts the names. Numbers are
integers or floating-point numbers, told apart by how they were written. -/

namespace Midend

/-- A JSON number. -/
inductive Json.Number where
  /-- A number written without fraction and exponent that fits 64 bits. -/
  | integer (value : Int)
  /-- Any other number. -/
  | float (value : Binary64)
  deriving DecidableEq, Repr

/-- A JSON document. -/
inductive Json where
  /-- The absent value. -/
  | null
  /-- A truth value. -/
  | bool (value : Bool)
  /-- A number. -/
  | number (value : Json.Number)
  /-- A text. -/
  | string (value : String)
  /-- A list of documents. -/
  | array (elements : List Json)
  /-- A list of named documents, in the order written. -/
  | object (members : List (String × Json))
  deriving Repr, Inhabited

namespace Json

/-- A document for an integer. -/
def ofInt (value : Int) : Json := .number (.integer value)

/-- A document for a natural number. -/
def ofNat (value : Nat) : Json := ofInt value

/-- A list of texts. -/
def ofStrings (values : List String) : Json := .array (values.map .string)

/-! ## Numbers -/

/-- Numbers are positional from `0.00001` up to sixteen digits before the point; an exponent
carries its sign. -/
def numberLayout : Decimal.Layout := ⟨.even, -5, 15, "e+", "e-"⟩

/-- The text of a number. -/
def Number.render : Number → String
  | .integer value => toString value
  | .float value => Decimal.renderFinite numberLayout value

/-- The number as a 64-bit signed integer, when it is one. -/
def Number.toInt64? : Number → Option Int64
  | .integer value =>
    if Int64.minValue.toInt ≤ value ∧ value ≤ Int64.maxValue.toInt then some (Int64.ofInt value)
    else none
  | .float _ => none

/-- The floating-point number nearest to a number. -/
def Number.toBinary64 : Number → Binary64
  | .integer value => Binary64.ofInt value
  | .float value => value

/-! ## Texts -/

/-- A hexadecimal digit in lower case. -/
def hexDigit (value : Nat) : Char := Nat.digitChar (value % 16)

/-- A character inside a quoted text. Quotes, backslashes and control characters are escaped. -/
def escapeChar (char : Char) : List Char :=
  match char with
  | '"' => ['\\', '"']
  | '\\' => ['\\', '\\']
  | '\n' => ['\\', 'n']
  | '\r' => ['\\', 'r']
  | '\t' => ['\\', 't']
  | _ =>
    if char.toNat = 8 then ['\\', 'b']
    else if char.toNat = 12 then ['\\', 'f']
    else if char.toNat < 32 then
      ['\\', 'u', '0', '0', hexDigit (char.toNat / 16), hexDigit char.toNat]
    else [char]

/-- A quoted text. -/
def quote (text : String) : String :=
  "\"" ++ String.ofList (text.toList.flatMap escapeChar) ++ "\""

/-! ## Documents -/

mutual

/-- Gives every member name of every object the last of its values and sorts the names. -/
def canonical : Json → Json
  | .array elements => .array (canonicalElements elements)
  | .object members => .object (SortedMap.ofList (canonicalMembers members)).toList
  | scalar => scalar

/-- `canonical` on a list of elements. -/
def canonicalElements : List Json → List Json
  | [] => []
  | element :: rest => canonical element :: canonicalElements rest

/-- `canonical` on the values of a list of members. -/
def canonicalMembers : List (String × Json) → List (String × Json)
  | [] => []
  | (name, value) :: rest => (name, canonical value) :: canonicalMembers rest

end

mutual

/-- The text of a document on one line, without blanks. -/
def compact : Json → String
  | .null => "null"
  | .bool value => toString value
  | .number value => value.render
  | .string value => quote value
  | .array elements => "[" ++ ",".intercalate (compactElements elements) ++ "]"
  | .object members => "\x7b" ++ ",".intercalate (compactMembers members) ++ "\x7d"

/-- The texts of elements. -/
def compactElements : List Json → List String
  | [] => []
  | element :: rest => compact element :: compactElements rest

/-- The texts of members. -/
def compactMembers : List (String × Json) → List String
  | [] => []
  | (name, value) :: rest => (quote name ++ ":" ++ compact value) :: compactMembers rest

end

/-- Lays out the items of a list or object between brackets, one on each line, indented one level
deeper than `depth`; without items the brackets touch. -/
def bracketed (depth : Nat) (opening closing : String) (items : List String) : String :=
  if items.isEmpty then opening ++ closing
  else
    let indent := "\n" ++ "".pushn ' ' (2 * (depth + 1))
    opening ++ indent ++ ("," ++ indent).intercalate items ++ "\n" ++ "".pushn ' ' (2 * depth) ++
      closing

mutual

/-- The text of a document over several lines, indented by two blanks a level. -/
def prettyAt (depth : Nat) : Json → String
  | .array elements => bracketed depth "[" "]" (prettyElements (depth + 1) elements)
  | .object members => bracketed depth "\x7b" "\x7d" (prettyMembers (depth + 1) members)
  | scalar => compact scalar

/-- The texts of elements at a depth. -/
def prettyElements (depth : Nat) : List Json → List String
  | [] => []
  | element :: rest => prettyAt depth element :: prettyElements depth rest

/-- The texts of members at a depth. -/
def prettyMembers (depth : Nat) : List (String × Json) → List String
  | [] => []
  | (name, value) :: rest =>
    (quote name ++ ": " ++ prettyAt depth value) :: prettyMembers depth rest

end

/-- The text of a document over several lines. -/
def pretty (document : Json) : String := prettyAt 0 document

end Json

end Midend
