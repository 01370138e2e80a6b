import Mathlib.Data.List.Forall2
import Midend.Proofs.Json.Scalars

/-! # Items on lines of their own

Elements of lists and members of objects are written on lines of their own between brackets, with
commas behind all but the last (`exists_bracketed`). They are read one after another as long as each
of them is taken whatever follows it (`exists_readElements`, `exists_readMembers`). -/

namespace Midend

namespace Json

/-! ## Blanks -/

/-- Blanks in front of a text that is not blank are skipped whatever follows. -/
theorem skipBlanks_append {text others : List Char} {first : Char}
    (starts : skipBlanks text = first :: others) (more : List Char) :
    skipBlanks (text ++ more) = first :: (others ++ more) := by
  unfold skipBlanks at starts ⊢
  rw [List.dropWhile_append, starts, if_neg (by simp)]
  rfl

/-- Leading blanks do not matter. -/
theorem skipBlanks_blanks {blanks : List Char} (areBlank : ∀ char ∈ blanks, isBlank char = true)
    (text : List Char) : skipBlanks (blanks ++ text) = skipBlanks text :=
  List.dropWhile_append_of_pos areBlank

/-- Text in front of which blanks were skipped starts with something else. -/
theorem not_isBlank_of_skipBlanks {text others : List Char} {first : Char}
    (starts : skipBlanks text = first :: others) : isBlank first = false := by
  have kept := List.head?_dropWhile_not isBlank text
  rw [show List.dropWhile isBlank text = _ from starts] at kept
  exact kept

/-- After blanks there are no more. -/
theorem skipBlanks_of_skipBlanks {text others : List Char} {first : Char}
    (starts : skipBlanks text = first :: others) (more : List Char) :
    skipBlanks (first :: more) = first :: more := by
  unfold skipBlanks
  rw [List.dropWhile_cons, not_isBlank_of_skipBlanks starts]
  rfl

/-- A number ends in front of blanks and what cannot belong to it. -/
theorem endsNumber_of_skipBlanks {text others : List Char} {first : Char}
    (starts : skipBlanks text = first :: others) (ends : EndsNumber [first]) : EndsNumber text := by
  cases text with
  | nil => cases starts
  | cons char text =>
    by_cases blank : isBlank char = true
    · rw [endsNumber_cons]
      simp only [isBlank, Bool.or_eq_true, beq_iff_eq] at blank
      rcases blank with ((rfl | rfl) | rfl) | rfl <;> decide
    · unfold skipBlanks at starts
      rw [List.dropWhile_cons, if_neg blank] at starts
      obtain ⟨rfl, _⟩ := List.cons.inj starts
      rw [endsNumber_cons] at ends ⊢
      exact ends

/-! ## Values in front of other text -/

/-- What starts, blanks aside, neither like the end of a list nor like a separator in it. -/
def Solid (text : List Char) : Prop :=
  ∃ first others, skipBlanks text = first :: others ∧ first ≠ ',' ∧ first ≠ ']'

/-- A value is taken from a text, whatever follows, up to blanks. -/
structure Takes {α : Type} (take : List Char → Except Problem (α × List Char)) (text : List Char)
    (value : α) : Prop where
  /-- The text can stand in a list. -/
  solid : Solid text
  /-- The value is what the text gives. -/
  taken : ∀ {whole rest}, EndsNumber rest → skipBlanks whole = skipBlanks (text ++ rest) →
    ∃ left, take whole = .ok (value, left) ∧ skipBlanks left = skipBlanks rest

section

variable {α σ : Type}

/-- A value is taken from a text when it is taken from all that starts with it. -/
theorem Takes.of_cons {take : List Char → Except Problem (α × List Char)} {first : Char}
    {others : List Char} {value : α}
    (fits : isBlank first = false ∧ first ≠ ',' ∧ first ≠ ']')
    (taken : ∀ {whole rest}, EndsNumber rest → skipBlanks whole = first :: (others ++ rest) →
      take whole = .ok (value, rest)) : Takes take (first :: others) value := by
  have starts : ∀ more, skipBlanks (first :: more) = first :: more := by
    intro more
    rw [skipBlanks, List.dropWhile_cons, fits.1]
    rfl
  refine ⟨⟨first, others, starts others, fits.2⟩, fun {whole rest} ends isWhole => ?_⟩
  exact ⟨rest, taken ends (isWhole.trans (starts _)), rfl⟩

/-- Leading blanks do not keep a value from being taken. -/
theorem Takes.blanks {take : List Char → Except Problem (α × List Char)} {text : List Char}
    {value : α} (takes : Takes take text value) {blanks : List Char}
    (areBlank : ∀ char ∈ blanks, isBlank char = true) : Takes take (blanks ++ text) value := by
  obtain ⟨⟨first, others, starts, fits⟩, taken⟩ := takes
  refine ⟨⟨first, others, (skipBlanks_blanks areBlank text).trans starts, fits⟩, ?_⟩
  intro whole rest ends isWhole
  rw [List.append_assoc, skipBlanks_blanks areBlank] at isWhole
  exact taken ends isWhole

/-- A value that is taken can be changed. -/
theorem Takes.mapRead {β : Type} {take : List Char → Except Problem (α × List Char)}
    {text : List Char} {value : α} (takes : Takes take text value) (change : α → β) :
    Takes (fun text => Json.mapRead change (take text)) text (change value) := by
  refine ⟨takes.solid, fun {whole rest} ends isWhole => ?_⟩
  obtain ⟨left, taken, isLeft⟩ := takes.taken ends isWhole
  refine ⟨left, ?_, isLeft⟩
  rw [taken]
  rfl

/-! ## Items between brackets -/

/-- Items with separators between them, and before the first one unless it is the first of all. -/
def separated : (isFirst : Bool) → List (List Char) → List Char
  | _, [] => []
  | isFirst, part :: parts => (if isFirst then [] else [',']) ++ (part ++ separated false parts)

/-- Items with separators between them. -/
theorem separated_true (parts : List (List Char)) : separated true parts = [','].intercalate parts := by
  cases parts with
  | nil => rfl
  | cons part parts =>
    induction parts generalizing part with
    | nil => simp [separated]
    | cons next parts partsIH =>
      rw [List.intercalate_cons_cons, ← partsIH]
      simp [separated]

/-- Items that are not empty take up at least as many characters as there are items. -/
theorem length_le_length_separated {isFirst : Bool} {parts : List (List Char)}
    (some : ∀ part ∈ parts, part ≠ []) : parts.length ≤ (separated isFirst parts).length := by
  induction parts generalizing isFirst with
  | nil => exact Nat.zero_le _
  | cons part parts partsIH =>
    rw [List.forall_mem_cons] at some
    have here := List.length_pos_iff.2 some.1
    have later := @partsIH false some.2
    simp only [separated, List.length_append, List.length_cons]
    omega

/-- What follows an item ends a number. -/
theorem endsNumber_separated {parts : List (List Char)} {close after : List Char} {bracket : Char}
    (closes : skipBlanks close = bracket :: after) (ends : EndsNumber [bracket]) :
    EndsNumber (separated false parts ++ close) := by
  cases parts with
  | nil => exact endsNumber_of_skipBlanks closes ends
  | cons part parts => exact endsNumber_cons.2 (by decide)

/-- Elements are taken one after another. -/
theorem exists_readElements {take : List Char → Except Problem (α × List Char)}
    {parts : List (List Char)} {values : List α}
    (each : List.Forall₂ (Takes take) parts values)
    {close after : List Char} (closes : skipBlanks close = ']' :: after) {isFirst : Bool}
    {whole : List Char} (isWhole : skipBlanks whole = skipBlanks (separated isFirst parts ++ close))
    {budget : Nat} (enough : parts.length < budget) :
    ∃ left, readElements take budget isFirst whole = .ok (values, left) ∧
      skipBlanks left = ']' :: after := by
  induction each generalizing isFirst whole budget with
  | nil =>
    obtain ⟨budget, rfl⟩ := Nat.exists_eq_succ_of_ne_zero (Nat.ne_of_gt enough)
    have isClose : skipBlanks whole = ']' :: after := isWhole.trans closes
    refine ⟨whole, ?_, isClose⟩
    have next : nextElement isFirst whole = .ok none := by
      unfold nextElement
      rw [isClose]
      rfl
    rw [readElements, next]
  | @cons part value parts values here later laterIH =>
    obtain ⟨budget, rfl⟩ := Nat.exists_eq_succ_of_ne_zero (Nat.ne_of_gt (Nat.zero_lt_of_lt enough))
    obtain ⟨⟨first, others, starts, notComma, notBracket⟩, takes⟩ := here
    have isPart := skipBlanks_append starts (separated false parts ++ close)
    have next : nextElement isFirst whole =
        .ok (some (first :: (others ++ (separated false parts ++ close)))) := by
      unfold nextElement
      cases isFirst with
      | true =>
        rw [isWhole, separated, if_pos rfl, List.nil_append, List.append_assoc, isPart]
        simp [notComma, notBracket]
      | false =>
        have comma : skipBlanks whole = ',' :: (part ++ (separated false parts ++ close)) := by
          rw [isWhole, separated, if_neg Bool.false_ne_true, List.append_assoc, List.append_assoc]
          rfl
        rw [comma]
        simp [isPart, notBracket]
    -- A number has to end where its element does, at a comma or the closing bracket.
    obtain ⟨left, taken, isLeft⟩ := takes
      (endsNumber_separated closes (by simp [endsNumber_cons]))
      ((skipBlanks_of_skipBlanks starts _).trans isPart.symm)
    obtain ⟨final, readOthers, isFinal⟩ := laterIH isLeft (Nat.lt_of_succ_lt_succ enough)
    refine ⟨final, ?_, isFinal⟩
    rw [readElements, next]
    simp only [taken, readOthers]
    rfl

/-- What is written for a member of an object: blanks, its name, and the text of its value. -/
def memberText (indent : List Char) (member : String × List Char) : List Char :=
  indent ++ ((quote member.1).toList ++ ':' :: member.2)

/-- Members with the texts of their values change a state one after another. -/
inductive Members (start : String → σ → Except Problem (List Char → Except Problem (σ × List Char))) :
    List (String × List Char) → σ → σ → Prop where
  | nil {state : σ} : Members start [] state state
  | cons {name : String} {text : List Char} {members : List (String × List Char)}
      {state next final : σ} {take : List Char → Except Problem (σ × List Char)}
      (starts : start name state = .ok take) (takes : Takes take text next)
      (others : Members start members next final) :
      Members start ((name, text) :: members) state final

/-- Members are read one after another. -/
theorem exists_readMembers
    {start : String → σ → Except Problem (List Char → Except Problem (σ × List Char))}
    {members : List (String × List Char)} {state final : σ}
    (each : Members start members state final) {indent : List Char}
    (areBlank : ∀ char ∈ indent, isBlank char = true) {close after : List Char}
    (closes : skipBlanks close = '\x7d' :: after) {isFirst : Bool} {whole : List Char}
    (isWhole : skipBlanks whole =
      skipBlanks (separated isFirst (members.map (memberText indent)) ++ close))
    {budget : Nat} (enough : members.length < budget) :
    ∃ left, readMembers start budget isFirst state whole = .ok (final, left) ∧
      skipBlanks left = '\x7d' :: after := by
  induction each generalizing isFirst whole budget with
  | nil =>
    obtain ⟨budget, rfl⟩ := Nat.exists_eq_succ_of_ne_zero (Nat.ne_of_gt enough)
    have isClose : skipBlanks whole = '\x7d' :: after := isWhole.trans closes
    refine ⟨whole, ?_, isClose⟩
    have next : nextMember isFirst whole = .ok none := by
      unfold nextMember
      rw [isClose]
      rfl
    rw [readMembers, next]
  | @cons name text members state middle final take starts takes others othersIH =>
    obtain ⟨budget, rfl⟩ := Nat.exists_eq_succ_of_ne_zero (Nat.ne_of_gt (Nat.zero_lt_of_lt enough))
    -- A member starts with its name, behind blanks and, unless it is the first, a comma.
    have isMember : ∀ more, skipBlanks (memberText indent (name, text) ++ more) =
        '"' :: (name.toList.flatMap escapeChar ++ '"' :: (':' :: text ++ more)) := by
      intro more
      rw [memberText, List.append_assoc, skipBlanks_blanks areBlank, toList_quote]
      simp [skipBlanks, isBlank]
    have next : nextMember isFirst whole = .ok (some (name, ':' :: text ++
        (separated false (members.map (memberText indent)) ++ close))) := by
      unfold nextMember
      cases isFirst with
      | true =>
        rw [isWhole, List.map_cons, separated, if_pos rfl, List.nil_append, List.append_assoc,
          isMember]
        simp only [readText_quoted]
        rfl
      | false =>
        have comma : skipBlanks whole = ',' :: (memberText indent (name, text) ++
            (separated false (members.map (memberText indent)) ++ close)) := by
          rw [isWhole, List.map_cons, separated, if_neg Bool.false_ne_true, List.append_assoc,
            List.append_assoc]
          rfl
        rw [comma]
        simp only [isMember, readText_quoted]
        rfl
    have colon : readColon (':' :: text ++ (separated false (members.map (memberText indent)) ++
        close)) = .ok (text ++ (separated false (members.map (memberText indent)) ++ close)) := rfl
    obtain ⟨left, taken, isLeft⟩ := takes.taken
      (endsNumber_separated closes
        (by simp [endsNumber_cons])) rfl
    obtain ⟨last, readOthers, isLast⟩ := othersIH isLeft (Nat.lt_of_succ_lt_succ enough)
    refine ⟨last, ?_, isLast⟩
    rw [readMembers, next]
    simp only [starts, colon, taken, readOthers]

end

/-! ## Layout -/

/-- A new line that is indented. -/
def lineStart (depth : Nat) : List Char := '\n' :: List.replicate (2 * depth) ' '

/-- The start of a line is blank. -/
theorem isBlank_of_mem_lineStart (depth : Nat) : ∀ char ∈ lineStart depth, isBlank char = true := by
  intro char member
  rcases List.mem_cons.1 member with rfl | member
  · rfl
  · rw [List.eq_of_mem_replicate member]
    rfl

/-- The characters of the start of a line. -/
theorem toList_lineStart (depth : Nat) :
    ("\n" ++ "".pushn ' ' (2 * depth)).toList = lineStart depth := by
  have padding : ∀ count, ("".pushn ' ' count).toList = List.replicate count ' ' := by
    intro count
    induction count with
    | zero => rfl
    | succ count countIH =>
      rw [String.pushn, Nat.repeat, String.toList_push, ← String.pushn, countIH,
        List.replicate_succ']
  rw [String.toList_append, padding]
  rfl

/-- Items with a separator and blanks in front of each but the first. -/
theorem append_intercalate (blanks : List Char) (items : List (List Char)) (some : items ≠ []) :
    blanks ++ (',' :: blanks).intercalate items =
      separated true (items.map (blanks ++ ·)) := by
  rw [separated_true]
  induction items with
  | nil => exact absurd rfl some
  | cons item items itemsIH =>
    cases items with
    | nil => simp
    | cons next items =>
      rw [List.intercalate_cons_cons, List.map_cons, List.map_cons, List.intercalate_cons_cons,
        ← List.map_cons, ← itemsIH (List.cons_ne_nil _ _)]
      simp

/-- The characters of items between brackets: each of them after the start of a line. -/
theorem exists_bracketed (depth : Nat) (opening closing : String) (items : List String) :
    ∃ blanks, (∀ char ∈ blanks, isBlank char = true) ∧
      (bracketed depth opening closing items).toList = opening.toList ++
        (separated true (items.map fun item => lineStart (depth + 1) ++ item.toList) ++
          (blanks ++ closing.toList)) := by
  cases items with
  | nil => exact ⟨[], nofun, by simp [bracketed, separated]⟩
  | cons item items =>
    refine ⟨lineStart depth, isBlank_of_mem_lineStart depth, ?_⟩
    obtain ⟨line, isLine⟩ : ∃ line, "\n" ++ "".pushn ' ' (2 * (depth + 1)) = line := ⟨_, rfl⟩
    obtain ⟨last, isLast⟩ : ∃ last, "\n" ++ "".pushn ' ' (2 * depth) = last := ⟨_, rfl⟩
    have grouped : bracketed depth opening closing (item :: items) =
        opening ++ (line ++ ("," ++ line).intercalate (item :: items)) ++ (last ++ closing) := by
      rw [bracketed, if_neg (by simp), ← isLine, ← isLast]
      simp only [String.append_assoc]
    have inside := append_intercalate line.toList ((item :: items).map String.toList)
      (List.cons_ne_nil _ _)
    rw [List.map_map] at inside
    rw [grouped, ← toList_lineStart, ← toList_lineStart, isLine, isLast]
    simp only [String.toList_append, String.toList_intercalate, List.append_assoc]
    rw [← List.append_assoc line.toList]
    exact congrArg (fun middle => opening.toList ++ (middle ++ (last.toList ++ closing.toList))) inside

end Json

end Midend
