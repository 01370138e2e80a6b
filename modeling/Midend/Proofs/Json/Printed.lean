import Midend.Proofs.Json.Layout

/-! # Documents are read as they are written

What is written for a document gives back the document, as long as the numbers in it are written in a
way that gives them back and it is not nested too deep (`parse_pretty`). A reader of values of another
type takes the value from what is written for a document when it is made for its shape (`Decodes`):
lists for readers of lists, and objects for readers of records, if their members are the fields that
are there, in their order (`Fills`). -/

namespace Midend

namespace Json

/-! ## Numbers that are read as they are written -/

/-- Whether what is written for a number gives back the number. -/
def Number.ReadsBack (number : Number) : Prop := parse number.render = .ok (.number number)

/-- A sign starts a number. -/
theorem readAny_of_minus {text digits : List Char} (starts : skipBlanks text = '-' :: digits)
    (nesting : Nat) : readAny nesting text = mapRead .number (readNumber true digits) := by
  unfold readAny
  rw [starts]
  rfl

/-- A digit starts a number. -/
theorem readAny_of_isDigit {text digits : List Char} {first : Char}
    (starts : skipBlanks text = first :: digits) (isDigit : first.isDigit = true) (nesting : Nat) :
    readAny nesting text = mapRead .number (readNumber false (first :: digits)) := by
  unfold readAny
  rw [starts]
  split
  case h_9 char rest _ _ _ _ _ _ _ isCons =>
    obtain ⟨rfl, rfl⟩ := List.cons.inj isCons
    rw [if_pos isDigit]
  case h_1 isCons => cases isCons
  -- No other character that starts a document is a digit.
  all_goals
    rename_i isCons
    obtain ⟨rfl, _⟩ := List.cons.inj isCons
    exact absurd isDigit (by decide)

/-- Only a sign or a digit starts a number. -/
theorem starts_of_readAny_eq_number {nesting : Nat} {text rest : List Char} {number : Number}
    (read : readAny nesting text = .ok (.number number, rest)) :
    (∃ digits, skipBlanks text = '-' :: digits ∧ readNumber true digits = .ok (number, rest)) ∨
      ∃ first digits, skipBlanks text = first :: digits ∧ first.isDigit = true ∧
        readNumber false (first :: digits) = .ok (number, rest) := by
  -- One case for each way in which a value starts; all but two give no number.
  unfold readAny at read
  split at read
  · cases read
  · obtain ⟨_, _, impossible⟩ := Attempt.bind_eq_ok.1 read
    cases impossible
  · obtain ⟨_, _, impossible⟩ := Attempt.bind_eq_ok.1 read
    cases impossible
  · obtain ⟨_, _, impossible⟩ := Attempt.bind_eq_ok.1 read
    cases impossible
  · obtain ⟨_, _, impossible⟩ := mapRead_eq_ok.1 read
    cases impossible
  · rename_i digits starts
    obtain ⟨_, taken, same⟩ := mapRead_eq_ok.1 read
    cases same
    exact .inl ⟨digits, starts, taken⟩
  · split at read
    · cases read
    · obtain ⟨_, _, impossible⟩ := mapRead_eq_ok.1 read
      cases impossible
  · split at read
    · cases read
    · obtain ⟨_, _, read⟩ := Attempt.bind_eq_ok.1 read
      obtain ⟨_, _, impossible⟩ := Attempt.bind_eq_ok.1 read
      cases impossible
  · rename_i first digits _ _ _ _ _ _ _ starts
    split at read
    · rename_i isDigit
      obtain ⟨_, taken, same⟩ := mapRead_eq_ok.1 read
      cases same
      exact .inr ⟨first, digits, starts, isDigit, taken⟩
    · cases read

/-- A whole text is read if a value is taken from it and nothing but blanks is left. -/
theorem Reader.run_eq_ok {α : Type} {read : Reader α} {text : String} {value : α} :
    read.run text = .ok value ↔
      ∃ rest, read maxNesting text.toList = .ok (value, rest) ∧ skipBlanks rest = [] := by
  rw [Reader.run, Attempt.bind_eq_ok]
  constructor
  · rintro ⟨⟨taken, rest⟩, isTaken, ended⟩
    dsimp only at ended
    split at ended
    · rename_i isEmpty
      cases ended
      exact ⟨rest, isTaken, List.isEmpty_iff.1 isEmpty⟩
    · cases ended
  · rintro ⟨rest, isTaken, isEnd⟩
    exact ⟨(value, rest), isTaken, if_pos (List.isEmpty_iff.2 isEnd)⟩

/-- A number that reads back is taken from what is written for it. -/
theorem Number.ReadsBack.takes {number : Number} (readsBack : number.ReadsBack) (nesting : Nat) :
    Takes (readAny nesting) number.render.toList (.number number) := by
  obtain ⟨left, read, isEnd⟩ := Reader.run_eq_ok.1 readsBack
  -- What is left over of the text by itself are blanks at most.
  have isLeft : ∀ rest, skipBlanks (left ++ rest) = skipBlanks rest := fun rest =>
    skipBlanks_blanks (List.dropWhile_eq_nil_iff.1 isEnd) rest
  rcases starts_of_readAny_eq_number read with ⟨digits, starts, taken⟩ |
    ⟨first, digits, starts, isDigit, taken⟩
  · refine ⟨⟨'-', digits, starts, by decide, by decide⟩, fun {whole rest} ends isWhole => ?_⟩
    rw [skipBlanks_append starts] at isWhole
    exact ⟨left ++ rest, by rw [readAny_of_minus isWhole, readNumber_append ends taken]; rfl,
      isLeft rest⟩
  · refine ⟨⟨first, digits, starts, ?_, ?_⟩, fun {whole rest} ends isWhole => ?_⟩
    · rintro rfl
      exact absurd isDigit (by decide)
    · rintro rfl
      exact absurd isDigit (by decide)
    · rw [skipBlanks_append starts] at isWhole
      have more := readNumber_append ends taken
      exact ⟨left ++ rest, by rw [readAny_of_isDigit isWhole isDigit, ← List.cons_append, more]; rfl,
        isLeft rest⟩

/-- The characters of a natural number. -/
theorem toList_render_natural (value : Nat) :
    (Number.integer value).render.toList = Nat.toDigits 10 value := by
  rw [Number.render, Int.toString_eq_repr, Int.repr_eq_if, if_pos (Int.natCast_nonneg value),
    Int.toNat_natCast, Nat.toList_repr]

/-- The digits of a number start with a digit. -/
theorem exists_toDigits (value : Nat) : ∃ first others, Nat.toDigits 10 value = first :: others ∧
    first.isDigit = true ∧ ∀ rest, skipBlanks (Nat.toDigits 10 value ++ rest) =
      Nat.toDigits 10 value ++ rest := by
  obtain ⟨first, others, isCons⟩ := List.exists_cons_of_ne_nil (@Nat.toDigits_ne_nil value 10)
  have isDigit : first.isDigit = true :=
    Nat.isDigit_of_mem_toDigits (by decide) (by decide)
      (show first ∈ Nat.toDigits 10 value by rw [isCons]; exact List.mem_cons_self ..)
  refine ⟨first, others, isCons, isDigit, fun rest => ?_⟩
  have notBlank : isBlank first = false := by
    by_contra blank
    simp only [isBlank, Bool.not_eq_false, Bool.or_eq_true, beq_iff_eq] at blank
    rcases blank with ((rfl | rfl) | rfl) | rfl <;> exact absurd isDigit (by decide)
  rw [isCons, List.cons_append, skipBlanks, List.dropWhile_cons, notBlank]
  rfl

/-- Integers of 64 bits are read as they are written. -/
theorem readsBack_integer {value : Int} (low : -(Nat.pow 2 63 : Int) ≤ value)
    (high : value < (Nat.pow 2 64 : Int)) : (Number.integer value).ReadsBack := by
  replace low : -9223372036854775808 ≤ value := low
  replace high : value < 18446744073709551616 := high
  -- A document that is all of a text is what the text gives.
  have whole : ∀ {text : List Char}, text = (Number.integer value).render.toList →
      readAny maxNesting text = .ok (.number (.integer value), []) →
      (Number.integer value).ReadsBack := by
    rintro _ rfl read
    exact Reader.run_eq_ok.2 ⟨[], read, rfl⟩
  rw [Number.render, Int.toString_eq_repr, Int.repr_eq_if] at whole
  by_cases natural : 0 ≤ value
  · obtain ⟨magnitude, rfl⟩ := Int.eq_ofNat_of_zero_le natural
    rw [if_pos natural, Int.toNat_natCast, Nat.toList_repr] at whole
    obtain ⟨first, others, isCons, isDigit, starts⟩ := exists_toDigits magnitude
    have small : magnitude < Nat.pow 2 64 := by
      show magnitude < 2 ^ 64
      omega
    have read := readNumber_natural small endsNumber_nil
    have begins := starts []
    rw [List.append_nil] at read begins
    rw [isCons] at read begins whole
    refine whole rfl ?_
    rw [readAny_of_isDigit begins isDigit, read]
    rfl
  · obtain ⟨magnitude, isMagnitude⟩ := Int.eq_ofNat_of_zero_le (show 0 ≤ -value by omega)
    obtain rfl : value = -(magnitude : Int) := by omega
    rw [if_neg natural, Int.neg_neg, Int.toNat_natCast, String.toList_append, Nat.toList_repr]
      at whole
    have read := readNumber_negative (show 0 < magnitude by omega)
      (show magnitude ≤ 2 ^ 63 by omega) endsNumber_nil
    rw [List.append_nil] at read
    have begins : skipBlanks ("-".toList ++ Nat.toDigits 10 magnitude) =
        '-' :: Nat.toDigits 10 magnitude := rfl
    refine whole rfl ?_
    rw [readAny_of_minus begins, read]
    rfl

/-! ## Documents -/

mutual

/-- Whether something holds of each number in a document. -/
def EachNumber (holds : Number → Prop) : Json → Prop
  | .number value => holds value
  | .array elements => EachNumberOfElements holds elements
  | .object members => EachNumberOfMembers holds members
  | _ => True

/-- `EachNumber` for a list of elements. -/
def EachNumberOfElements (holds : Number → Prop) : List Json → Prop
  | [] => True
  | element :: rest => EachNumber holds element ∧ EachNumberOfElements holds rest

/-- `EachNumber` for the values of a list of members. -/
def EachNumberOfMembers (holds : Number → Prop) : List (String × Json) → Prop
  | [] => True
  | (_, value) :: rest => EachNumber holds value ∧ EachNumberOfMembers holds rest

end

mutual

/-- How deep lists and objects are nested in a document. -/
def nesting : Json → Nat
  | .array elements => nestingOfElements elements + 1
  | .object members => nestingOfMembers members + 1
  | _ => 0

/-- `nesting` of a list of elements. -/
def nestingOfElements : List Json → Nat
  | [] => 0
  | element :: rest => max (nesting element) (nestingOfElements rest)

/-- `nesting` of the values of a list of members. -/
def nestingOfMembers : List (String × Json) → Nat
  | [] => 0
  | (_, value) :: rest => max (nesting value) (nestingOfMembers rest)

end

theorem eachNumberOfElements_iff {holds : Number → Prop} {elements : List Json} :
    EachNumberOfElements holds elements ↔ ∀ element ∈ elements, element.EachNumber holds := by
  induction elements with
  | nil => simp [EachNumberOfElements]
  | cons element elements elementsIH => simp [EachNumberOfElements, elementsIH]

theorem eachNumberOfMembers_iff {holds : Number → Prop} {members : List (String × Json)} :
    EachNumberOfMembers holds members ↔ ∀ member ∈ members, member.2.EachNumber holds := by
  induction members with
  | nil => simp [EachNumberOfMembers]
  | cons member members membersIH => simp [EachNumberOfMembers, membersIH]

theorem nestingOfElements_le_iff {elements : List Json} {depth : Nat} :
    nestingOfElements elements ≤ depth ↔ ∀ element ∈ elements, element.nesting ≤ depth := by
  induction elements with
  | nil => simp [nestingOfElements]
  | cons element elements elementsIH =>
    rw [nestingOfElements, Nat.max_le, elementsIH, List.forall_mem_cons]

theorem nestingOfMembers_le_iff {members : List (String × Json)} {depth : Nat} :
    nestingOfMembers members ≤ depth ↔ ∀ member ∈ members, member.2.nesting ≤ depth := by
  induction members with
  | nil => simp [nestingOfMembers]
  | cons member members membersIH =>
    rw [nestingOfMembers, Nat.max_le, membersIH, List.forall_mem_cons]

theorem prettyElements_eq_map (depth : Nat) (elements : List Json) :
    prettyElements depth elements = elements.map (prettyAt depth) := by
  induction elements with
  | nil => rfl
  | cons element elements elementsIH => rw [prettyElements, elementsIH, List.map_cons]

theorem prettyMembers_eq_map (depth : Nat) (members : List (String × Json)) :
    prettyMembers depth members = members.map fun member =>
      quote member.1 ++ ": " ++ prettyAt depth member.2 := by
  induction members with
  | nil => rfl
  | cons member members membersIH => rw [prettyMembers, membersIH, List.map_cons]

/-- What is written for a document gives a value to a reader that may go deep enough. -/
structure Decodes {α : Type} (read : Reader α) (document : Json) (value : α) : Prop where
  /-- The numbers in the document are read as they are written. -/
  exact : document.EachNumber Number.ReadsBack
  /-- The value is taken from what is written. -/
  takes : ∀ depth levels, document.nesting ≤ levels →
    Takes (read levels) (prettyAt depth document).toList value

section

variable {α σ : Type}

/-- What is written for a list gives the elements. -/
theorem exists_readListBody {read : Reader α} {elements : List Json} {values : List α}
    (each : List.Forall₂ (Decodes read) elements values) (depth : Nat) {levels : Nat}
    (enough : nestingOfElements elements ≤ levels) :
    ∃ body, (prettyAt depth (.array elements)).toList = '[' :: body ∧
      ∀ rest, readListBody (read levels) (body ++ rest) = .ok (values, rest) := by
  obtain ⟨blanks, areBlank, isText⟩ :=
    exists_bracketed depth "[" "]" (prettyElements (depth + 1) elements)
  obtain ⟨lines, isLines⟩ : ∃ lines, (elements.map fun element =>
      lineStart (depth + 1) ++ (prettyAt (depth + 1) element).toList) = lines := ⟨_, rfl⟩
  have sameLines : (prettyElements (depth + 1) elements).map
      (fun item => lineStart (depth + 1) ++ item.toList) = lines := by
    rw [prettyElements_eq_map, List.map_map, ← isLines]
    rfl
  rw [sameLines] at isText
  refine ⟨separated true lines ++ (blanks ++ [']']), isText, fun rest => ?_⟩
  -- Every line is an element behind blanks.
  have parts : List.Forall₂ (Takes (read levels)) lines values := by
    rw [← isLines, List.forall₂_map_left_iff]
    rw [nestingOfElements_le_iff] at enough
    refine List.Forall₂.imp ?_ ((List.forall₂_and_left ..).2 ⟨enough, each⟩)
    rintro element value ⟨shallow, decodes⟩
    exact (decodes.takes (depth + 1) levels shallow).blanks (isBlank_of_mem_lineStart _)
  have closes : skipBlanks (blanks ++ ([']'] ++ rest)) = ']' :: rest := skipBlanks_blanks areBlank _
  have isWhole : skipBlanks (separated true lines ++ (blanks ++ [']']) ++ rest) =
      skipBlanks (separated true lines ++ (blanks ++ ([']'] ++ rest))) := by
    rw [List.append_assoc, List.append_assoc]
  have fits := @length_le_length_separated true lines (by
    rw [← isLines]
    intro part member
    obtain ⟨element, _, rfl⟩ := List.mem_map.1 member
    exact List.cons_ne_nil _ _)
  have longer : lines.length <
      (separated true lines ++ (blanks ++ [']']) ++ rest).length + 1 := by
    rw [List.length_append, List.length_append]
    omega
  obtain ⟨left, isRead, isLeft⟩ := exists_readElements parts closes isWhole longer
  rw [readListBody, isRead, Attempt.ok_bind]
  dsimp only
  rw [closeList, isLeft]
  rfl

/-- What is written for an object gives what its members make of a state. -/
theorem exists_readObject
    {start : String → σ → Except Problem (List Char → Except Problem (σ × List Char))}
    {members : List (String × Json)} {depth : Nat} {state final : σ}
    (each : Members start (members.map fun member =>
      (member.1, ' ' :: (prettyAt (depth + 1) member.2).toList)) state final) :
    ∃ body, (prettyAt depth (.object members)).toList = '\x7b' :: body ∧
      ∀ rest, ∃ left, readMembers start ((body ++ rest).length + 1) true state (body ++ rest) =
        .ok (final, left) ∧ closeObject left = .ok rest := by
  obtain ⟨blanks, areBlank, isText⟩ :=
    exists_bracketed depth "\x7b" "\x7d" (prettyMembers (depth + 1) members)
  obtain ⟨named, isNamed⟩ : ∃ named, (members.map fun member =>
      (member.1, ' ' :: (prettyAt (depth + 1) member.2).toList)) = named := ⟨_, rfl⟩
  have isLines : (prettyMembers (depth + 1) members).map
      (fun item => lineStart (depth + 1) ++ item.toList) =
        named.map (memberText (lineStart (depth + 1))) := by
    rw [prettyMembers_eq_map, ← isNamed, List.map_map, List.map_map]
    refine List.map_congr_left fun member _ => ?_
    simp [memberText]
  rw [isLines] at isText
  rw [isNamed] at each
  refine ⟨separated true (named.map (memberText (lineStart (depth + 1)))) ++ (blanks ++ ['\x7d']),
    isText, fun rest => ?_⟩
  have closes : skipBlanks (blanks ++ (['\x7d'] ++ rest)) = '\x7d' :: rest :=
    skipBlanks_blanks areBlank _
  have isWhole : skipBlanks (separated true (named.map (memberText (lineStart (depth + 1)))) ++
      (blanks ++ ['\x7d']) ++ rest) = skipBlanks (separated true
        (named.map (memberText (lineStart (depth + 1)))) ++ (blanks ++ (['\x7d'] ++ rest))) := by
    rw [List.append_assoc, List.append_assoc]
  have fits := @length_le_length_separated true (named.map (memberText (lineStart (depth + 1)))) (by
    intro part member
    obtain ⟨entry, _, rfl⟩ := List.mem_map.1 member
    exact List.cons_ne_nil _ _)
  rw [List.length_map] at fits
  -- The length of the text bounds the number of members that are read.
  have longer : named.length < (separated true (named.map (memberText (lineStart (depth + 1)))) ++
      (blanks ++ ['\x7d']) ++ rest).length + 1 := by
    rw [List.length_append, List.length_append]
    omega
  obtain ⟨left, isRead, isLeft⟩ :=
    exists_readMembers each (isBlank_of_mem_lineStart _) closes isWhole longer
  refine ⟨left, isRead, ?_⟩
  rw [closeObject, isLeft]
  rfl

/-- A bracket starts a list. -/
theorem readAny_of_bracket {text body : List Char} (starts : skipBlanks text = '[' :: body)
    (levels : Nat) :
    readAny (levels + 1) text = mapRead .array (readListBody (readAny levels) body) := by
  unfold readAny
  rw [starts]
  rfl

/-- How a member of an object is read when nothing is known about it. -/
def anyMember (levels : Nat) (name : String) (members : List (String × Json)) :
    Except Problem (List Char → Except Problem (List (String × Json) × List Char)) :=
  .ok fun text => mapRead (fun value => (name, value) :: members) (readAny levels text)

/-- A brace starts an object. -/
theorem readAny_of_brace {text body left rest : List Char} {members : List (String × Json)}
    (starts : skipBlanks text = '\x7b' :: body) {levels : Nat}
    (read : readMembers (anyMember levels) (body.length + 1) true [] body = .ok (members, left))
    (closed : closeObject left = .ok rest) :
    readAny (levels + 1) text = .ok (.object members.reverse, rest) := by
  have opened : readAny (levels + 1) text = (do
      let found ← readMembers (anyMember levels) (body.length + 1) true [] body
      return (.object found.1.reverse, ← closeObject found.2)) := by
    unfold readAny
    rw [starts]
    rfl
  rw [opened, read, Attempt.ok_bind]
  dsimp only
  rw [closed]
  rfl

/-- What is written for the elements of a list gives the list. -/
theorem decodes_array {elements : List Json}
    (each : ∀ element ∈ elements, Decodes readAny element element) :
    Decodes readAny (.array elements) (.array elements) := by
  refine ⟨eachNumberOfElements_iff.2 fun element member => (each element member).exact, ?_⟩
  intro depth levels enough
  cases levels with
  | zero => cases enough
  | succ levels =>
    obtain ⟨body, isText, reads⟩ := exists_readListBody (List.forall₂_same.2 each) depth
      (Nat.le_of_succ_le_succ enough)
    rw [isText]
    refine .of_cons ⟨by decide, by decide, by decide⟩ fun _ starts => ?_
    rw [readAny_of_bracket starts, reads]
    rfl

/-- What is written for the members of an object gives the object. -/
theorem decodes_object {members : List (String × Json)}
    (each : ∀ member ∈ members, Decodes readAny member.2 member.2) :
    Decodes readAny (.object members) (.object members) := by
  refine ⟨eachNumberOfMembers_iff.2 fun member isMember => (each member isMember).exact, ?_⟩
  intro depth levels enough
  cases levels with
  | zero => cases enough
  | succ levels =>
    have shallow := nestingOfMembers_le_iff.1 (Nat.le_of_succ_le_succ enough)
    -- The members are collected last one first.
    have collects : ∀ before, Members (anyMember levels) (members.map fun member =>
        (member.1, ' ' :: (prettyAt (depth + 1) member.2).toList)) before
          (members.reverse ++ before) := by
      clear enough
      induction members with
      | nil => exact fun before => .nil
      | cons member members membersIH =>
        intro before
        rw [List.forall_mem_cons] at each shallow
        have here := ((each.1.takes (depth + 1) levels shallow.1).blanks
          (List.forall_mem_singleton.2 (show isBlank ' ' = true from rfl))).mapRead
            fun value => (member.1, value) :: before
        refine .cons rfl here ?_
        have later := membersIH each.2 shallow.2 (member :: before)
        rwa [List.reverse_cons, List.append_assoc]
    obtain ⟨body, isText, reads⟩ := exists_readObject (collects [])
    rw [isText]
    refine .of_cons ⟨by decide, by decide, by decide⟩ fun {whole rest} _ starts => ?_
    obtain ⟨left, isRead, isClosed⟩ := reads rest
    rw [readAny_of_brace starts isRead isClosed, List.append_nil, List.reverse_reverse]

end

/-- A document is read when all that starts with what is written for it is. -/
theorem decodes_word {α : Type} {read : Reader α} {document : Json} {value : α}
    (exact : document.EachNumber Number.ReadsBack) (first : Char) (others : List Char)
    (isText : ∀ depth, (prettyAt depth document).toList = first :: others)
    (fits : isBlank first = false ∧ first ≠ ',' ∧ first ≠ ']')
    (reads : ∀ levels whole rest, skipBlanks whole = first :: (others ++ rest) →
      read levels whole = .ok (value, rest)) : Decodes read document value := by
  refine ⟨exact, fun depth levels _ => ?_⟩
  rw [isText]
  exact .of_cons fits fun {whole rest} _ starts => reads levels whole rest starts

/-- The words of JSON are read as they are written. -/
theorem decodes_words :
    Decodes readAny .null .null ∧ ∀ value, Decodes readAny (.bool value) (.bool value) := by
  refine ⟨?_, Bool.rec ?_ ?_⟩
  · refine decodes_word trivial 'n' ['u', 'l', 'l'] (fun depth => ?_) (by decide) ?_
    · simp only [prettyAt, compact]
      rfl
    intro levels whole rest starts
    unfold readAny
    rw [starts]
    rfl
  · refine decodes_word trivial 'f' ['a', 'l', 's', 'e'] (fun depth => ?_) (by decide) ?_
    · simp only [prettyAt, compact]
      rfl
    intro levels whole rest starts
    unfold readAny
    rw [starts]
    rfl
  · refine decodes_word trivial 't' ['r', 'u', 'e'] (fun depth => ?_) (by decide) ?_
    · simp only [prettyAt, compact]
      rfl
    intro levels whole rest starts
    unfold readAny
    rw [starts]
    rfl

/-- A reader of quoted texts reads a text as it is written. -/
theorem decodes_quoted {read : Reader α} {change : String → α}
    (reads : ∀ levels whole quoted, skipBlanks whole = '"' :: quoted →
      read levels whole = mapRead change (readText quoted)) (text : String) :
    Decodes read (.string text) (change text) := by
  refine decodes_word trivial '"' (text.toList.flatMap escapeChar ++ ['"'])
    (fun _ => toList_quote text) (by decide) ?_
  intro levels whole rest starts
  rw [reads levels whole _ starts, List.append_assoc, List.singleton_append, readText_quoted]
  rfl

/-- Texts are read as they are written. -/
theorem decodes_string (text : String) : Decodes readAny (.string text) (.string text) := by
  refine @decodes_quoted _ _ Json.string ?_ text
  intro levels whole quoted starts
  unfold readAny
  rw [starts]
  rfl

mutual

/-- What is written for a document is read as that document, if its numbers are. -/
theorem decodes_readAny : (document : Json) → document.EachNumber Number.ReadsBack →
    Decodes readAny document document
  | .null, _ => decodes_words.1
  | .bool value, _ => decodes_words.2 value
  | .number _, exact => ⟨exact, fun _ levels _ => exact.takes levels⟩
  | .string text, _ => decodes_string text
  | .array elements, exact => decodes_array (decodes_elements elements exact)
  | .object members, exact => decodes_object (decodes_members members exact)

/-- `decodes_readAny` for a list of elements. -/
theorem decodes_elements : (elements : List Json) →
    EachNumberOfElements Number.ReadsBack elements →
    ∀ element ∈ elements, Decodes readAny element element
  | [], _ => nofun
  | element :: rest, exact => List.forall_mem_cons.2
      ⟨decodes_readAny element exact.1, decodes_elements rest exact.2⟩

/-- `decodes_readAny` for the values of a list of members. -/
theorem decodes_members : (members : List (String × Json)) →
    EachNumberOfMembers Number.ReadsBack members →
    ∀ member ∈ members, Decodes readAny member.2 member.2
  | [], _ => nofun
  | (_, value) :: rest, exact => List.forall_mem_cons.2
      ⟨decodes_readAny value exact.1, decodes_members rest exact.2⟩

end

/-- A document that is not nested too deep is read as it is written, if its numbers are. -/
theorem run_pretty {α : Type} {read : Reader α} {document : Json} {value : α}
    (decodes : Decodes read document value) (shallow : document.nesting ≤ maxNesting) :
    read.run document.pretty = .ok value := by
  obtain ⟨left, isRead, isLeft⟩ := (decodes.takes 0 maxNesting shallow).taken endsNumber_nil
    (show skipBlanks document.pretty.toList = _ by rw [List.append_nil]; rfl)
  exact Reader.run_eq_ok.2 ⟨left, isRead, isLeft⟩

/-- A document that is not nested too deep is read as it is written, if its numbers are. -/
theorem parse_pretty {document : Json} (exact : document.EachNumber Number.ReadsBack)
    (shallow : document.nesting ≤ maxNesting) : parse document.pretty = .ok document :=
  run_pretty (decodes_readAny document exact) shallow

end Json

end Midend
