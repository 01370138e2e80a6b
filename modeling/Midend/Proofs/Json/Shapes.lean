import Midend.Program.Json
import Midend.Proofs.Json.Printed

/-! # Readers of wanted shapes

A reader of a wanted shape takes from what is written for a document of that shape the value that the
document stands for: texts and numbers, lists of such values (`decodes_list`), and records, if the
members of an object are fields of the record in their order, each with what its reader takes
(`decodes_record`). What a reader takes from any text at all is good if what its parts take is
(`Gives`). -/

namespace Midend

namespace Json

section

variable {α β σ : Type}

/-! ## What is taken from what is written -/

/-- Readers of texts take texts. -/
theorem decodes_readerString (text : String) : Decodes Reader.string (.string text) text := by
  refine @decodes_quoted _ _ id ?_ text
  intro levels whole quoted starts
  rw [Reader.string, starts]
  show readText quoted = mapRead id (readText quoted)
  cases readText quoted with
  | error problem => rfl
  | ok taken => rfl

/-- Readers of natural numbers take those below their limit. -/
theorem decodes_natural {limit value : Nat} (low : value < limit) (fits : limit ≤ Nat.pow 2 64) :
    Decodes (Reader.natural limit) (.ofNat value) value := by
  have small : value < 2 ^ 64 := Nat.lt_of_lt_of_le low fits
  refine ⟨readsBack_integer (by omega) (by exact_mod_cast small), fun depth levels _ => ?_⟩
  have isText : (prettyAt depth (.ofNat value)).toList = Nat.toDigits 10 value := by
    simp only [ofNat, ofInt, prettyAt, compact]
    exact toList_render_natural value
  obtain ⟨first, others, isCons, isDigit, starts⟩ := exists_toDigits value
  have fitsList : isBlank first = false ∧ first ≠ ',' ∧ first ≠ ']' := by
    refine ⟨?_, ?_, ?_⟩
    · have begins := starts []
      rw [List.append_nil, isCons] at begins
      exact not_isBlank_of_skipBlanks begins
    · rintro rfl
      exact absurd isDigit (by decide)
    · rintro rfl
      exact absurd isDigit (by decide)
  rw [isText, isCons]
  refine .of_cons fitsList fun {whole rest} ends begins => ?_
  have read := readNumber_natural small ends
  rw [isCons, List.cons_append] at read
  rw [Reader.natural, begins]
  dsimp only
  rw [if_pos isDigit, read, Attempt.ok_bind]
  dsimp only
  rw [if_pos (by exact_mod_cast low), Int.toNat_natCast]

/-- Readers of what a document stands for take it. -/
theorem decodes_interpreted {interpret : Json → Option α} {document : Json} {value : α}
    (exact : document.EachNumber Number.ReadsBack) (meaning : interpret document = some value) :
    Decodes (Reader.interpreted interpret) document value := by
  refine ⟨exact, fun depth levels enough => ?_⟩
  have takes := (decodes_readAny document exact).takes depth levels enough
  refine ⟨takes.solid, fun {whole rest} ends isWhole => ?_⟩
  obtain ⟨left, isRead, isLeft⟩ := takes.taken ends isWhole
  refine ⟨left, ?_, isLeft⟩
  rw [Reader.interpreted, isRead, Attempt.ok_bind]
  dsimp only
  rw [meaning]

/-- Only the absent value starts like its word. -/
theorem exists_first {document : Json} (exact : document.EachNumber Number.ReadsBack)
    (present : document ≠ .null) (depth : Nat) : ∃ first others,
      skipBlanks (prettyAt depth document).toList = first :: others ∧ first ≠ 'n' := by
  cases document with
  | null => exact absurd rfl present
  | bool value =>
    cases value with
    | false => exact ⟨'f', ['a', 'l', 's', 'e'], by simp only [prettyAt, compact]; rfl, by decide⟩
    | true => exact ⟨'t', ['r', 'u', 'e'], by simp only [prettyAt, compact]; rfl, by decide⟩
  | number value =>
    have isText : (prettyAt depth (number value)).toList = value.render.toList := by
      simp only [prettyAt, compact]
    rw [isText]
    obtain ⟨left, isRead, _⟩ := (Number.ReadsBack.takes exact 0).taken endsNumber_nil
      (show skipBlanks value.render.toList = _ by rw [List.append_nil])
    -- A number starts with a sign or a digit.
    rcases starts_of_readAny_eq_number isRead with ⟨digits, starts, _⟩ |
      ⟨first, digits, starts, isDigit, _⟩
    · exact ⟨'-', digits, starts, by decide⟩
    · refine ⟨first, digits, starts, ?_⟩
      rintro rfl
      exact absurd isDigit (by decide)
  | string text =>
    have isText : (prettyAt depth (string text)).toList = (quote text).toList := by
      simp only [prettyAt, compact]
    rw [isText, toList_quote]
    exact ⟨'"', _, rfl, by decide⟩
  | array elements =>
    obtain ⟨body, isText, _⟩ := exists_readListBody (List.forall₂_same.2
      (decodes_elements elements exact)) depth (Nat.le_refl _)
    rw [isText]
    exact ⟨'[', body, rfl, by decide⟩
  | object members =>
    obtain ⟨blanks, _, isText⟩ :=
      exists_bracketed depth "\x7b" "\x7d" (prettyMembers (depth + 1) members)
    have isText : (prettyAt depth (object members)).toList = _ := isText
    rw [isText]
    exact ⟨'\x7b', _, rfl, by decide⟩

/-- Readers of values that may be absent take those that are there. -/
theorem decodes_optional {read : Reader α} {document : Json} {value : α}
    (decodes : Decodes read document value) (present : document ≠ .null) :
    Decodes (Reader.optional read) document (some value) := by
  refine ⟨decodes.exact, fun depth levels enough => ?_⟩
  have takes := decodes.takes depth levels enough
  obtain ⟨first, others, starts, notN⟩ := exists_first decodes.exact present depth
  refine ⟨takes.solid, fun {whole rest} ends isWhole => ?_⟩
  obtain ⟨left, isRead, isLeft⟩ := takes.taken ends isWhole
  refine ⟨left, ?_, isLeft⟩
  rw [skipBlanks_append starts] at isWhole
  rw [Reader.optional, isWhole]
  split
  · rename_i isCons
    exact absurd (List.cons.inj isCons).1 notN
  · rw [isRead]
    rfl

/-- Readers of lists take the values of the elements. -/
theorem decodes_list {read : Reader α} {documents : List Json} {values : List α}
    (each : List.Forall₂ (Decodes read) documents values) :
    Decodes (Reader.list read) (.array documents) values := by
  have exact : ∀ document ∈ documents, document.EachNumber Number.ReadsBack := by
    intro document member
    induction each with
    | nil => cases member
    | cons here _ laterIH =>
      rcases List.mem_cons.1 member with rfl | later
      · exact here.exact
      · exact laterIH later
  refine ⟨eachNumberOfElements_iff.2 exact, fun depth levels enough => ?_⟩
  cases levels with
  | zero => cases enough
  | succ levels =>
    obtain ⟨body, isText, reads⟩ := exists_readListBody each depth (Nat.le_of_succ_le_succ enough)
    rw [isText]
    refine .of_cons ⟨by decide, by decide, by decide⟩ fun {whole rest} _ starts => ?_
    rw [Reader.list, starts]
    exact reads rest

/-! ## Records -/

/-- The members of an object are fields of a record, in their order, and change the record as their
values say; the other fields may be absent. -/
inductive Fills : List (Field σ) → List (String × Json) → σ → σ → Prop where
  | nil {record : σ} : Fills [] [] record record
  | skip {field : Field σ} {fields : List (Field σ)} {members : List (String × Json)}
      {record final : σ} (optional : field.required = false)
      (others : Fills fields members record final) : Fills (field :: fields) members record final
  | fill {field : Field σ} {fields : List (Field σ)} {document : Json}
      {members : List (String × Json)} {put : σ → σ} {record final : σ}
      (decodes : Decodes field.read document put) (others : Fills fields members (put record) final) :
      Fills (field :: fields) ((field.name, document) :: members) record final

/-- The numbers in members that fill fields are read as they are written. -/
theorem Fills.exact {fields : List (Field σ)} {members : List (String × Json)} {record final : σ}
    (fills : Fills fields members record final) :
    ∀ member ∈ members, member.2.EachNumber Number.ReadsBack := by
  induction fills with
  | nil => exact fun member isMember => absurd isMember List.not_mem_nil
  | skip _ _ othersIH => exact othersIH
  | fill decodes _ othersIH => exact List.forall_mem_cons.2 ⟨decodes.exact, othersIH⟩

/-- Members that fill fields are read one after another; in the end all required fields are given. -/
theorem Fills.exists_members {all : List (Field σ)} (nodup : (all.map Field.name).Nodup)
    (depth levels : Nat) {fields : List (Field σ)} {members : List (String × Json)}
    {record final : σ} (fills : Fills fields members record final)
    (shallow : ∀ member ∈ members, member.2.nesting ≤ levels) {before : List (Field σ)}
    (isAll : all = before ++ fields) {given : List String}
    (isGiven : ∀ name ∈ given, name ∈ before.map Field.name)
    (complete : ∀ field ∈ before, field.required = true → field.name ∈ given) :
    ∃ names, Members (startMember levels all) (members.map fun member =>
        (member.1, ' ' :: (prettyAt depth member.2).toList)) (record, given) (final, names) ∧
      ∀ field ∈ all, field.required = true → field.name ∈ names := by
  induction fills generalizing before given with
  | nil =>
    rw [List.append_nil] at isAll
    exact ⟨given, .nil, isAll ▸ complete⟩
  | @skip field fields members record final optional _ othersIH =>
    refine @othersIH shallow (before ++ [field]) (by simp [isAll]) given ?_ ?_
    · intro name member
      rw [List.map_append]
      exact List.mem_append_left _ (isGiven name member)
    · intro other member required
      rcases List.mem_append.1 member with earlier | here
      · exact complete other earlier required
      · rw [List.mem_singleton.1 here, optional] at required
        cases required
  | @fill field fields document members put record final decodes _ othersIH =>
    rw [List.forall_mem_cons] at shallow
    have names : all.map Field.name =
        before.map Field.name ++ field.name :: fields.map Field.name := by simp [isAll]
    -- Names are distinct, so this is the field of the name, and it is not given yet.
    have notBefore : field.name ∉ before.map Field.name := by
      rw [names] at nodup
      exact fun earlier => (List.nodup_append.1 nodup).2.2 _ earlier _ (List.mem_cons_self ..) rfl
    have found : all.find? (·.name == field.name) = some field := by
      rw [isAll, List.find?_append, List.find?_eq_none.2 ?_]
      · simp
      · intro other member same
        exact notBefore (beq_iff_eq.1 same ▸ List.mem_map_of_mem member)
    have notGiven : field.name ∉ given := fun isName => notBefore (isGiven _ isName)
    have start : startMember levels all field.name (record, given) = .ok fun text =>
        mapRead (fun put => (put record, field.name :: given)) (field.read levels text) := by
      rw [startMember, found]
      simp [notGiven]
    have here := ((decodes.takes depth levels shallow.1).blanks
      (List.forall_mem_singleton.2 (show isBlank ' ' = true from rfl))).mapRead
        fun put => (put record, field.name :: given)
    have nowGiven : ∀ name ∈ field.name :: given, name ∈ (before ++ [field]).map Field.name := by
      intro name member
      rw [List.map_append]
      rcases List.mem_cons.1 member with rfl | earlier
      · exact List.mem_append_right _ (List.mem_singleton_self _)
      · exact List.mem_append_left _ (isGiven name earlier)
    have nowComplete : ∀ other ∈ before ++ [field], other.required = true →
        other.name ∈ field.name :: given := by
      intro other member required
      rcases List.mem_append.1 member with earlier | here
      · exact List.mem_cons_of_mem _ (complete other earlier required)
      · rw [List.mem_singleton.1 here]
        exact List.mem_cons_self ..
    obtain ⟨names, others, allGiven⟩ :=
      othersIH shallow.2 (by simp [isAll]) nowGiven nowComplete
    exact ⟨names, .cons start here others, allGiven⟩

/-- Readers of records take what fills their fields. -/
theorem decodes_record {blank value : σ} {fields : List (Field σ)} {members : List (String × Json)}
    (nodup : (fields.map Field.name).Nodup) (fills : Fills fields members blank value) :
    Decodes (Reader.record blank fields) (.object members) value := by
  refine ⟨eachNumberOfMembers_iff.2 fills.exact, fun depth levels enough => ?_⟩
  cases levels with
  | zero => cases enough
  | succ levels =>
    -- At the start no field has been given, so all of them are still to come.
    obtain ⟨names, each, complete⟩ := fills.exists_members nodup (depth + 1) levels
      (nestingOfMembers_le_iff.1 (Nat.le_of_succ_le_succ enough)) (List.nil_append fields).symm
      (fun name member => absurd member (@List.not_mem_nil _ name))
      (fun field member => absurd member List.not_mem_nil)
    obtain ⟨body, isText, reads⟩ := exists_readObject each
    rw [isText]
    refine .of_cons ⟨by decide, by decide, by decide⟩ fun {whole rest} _ starts => ?_
    obtain ⟨left, isRead, isClosed⟩ := reads rest
    have allGiven : (fields.all fun field => !field.required || names.contains field.name) = true := by
      rw [List.all_eq_true]
      intro field member
      cases required : field.required with
      | false => rfl
      | true => simpa using complete field member required
    rw [Reader.record, starts]
    show (do
      let found ← readMembers (startMember levels fields) ((body ++ rest).length + 1) true (blank, [])
        (body ++ rest)
      if fields.all fun field => !field.required || found.1.2.contains field.name then
        return (found.1.1, ← closeObject found.2)
      else .error .wrongShape) = _
    rw [isRead, Attempt.ok_bind]
    dsimp only
    rw [if_pos allGiven, isClosed]
    rfl

/-! ## Fields -/

/-- A field is filled by what its reader takes. -/
theorem decodes_field {read : Reader α} {document : Json} {value : α}
    (decodes : Decodes read document value) (name : String) (put : α → σ → σ) (required : Bool) :
    Decodes (Field.of name read put required).read document (put value) :=
  ⟨decodes.exact, fun depth levels enough => (decodes.takes depth levels enough).mapRead put⟩

/-- A field that must be there is filled by what its reader takes. -/
theorem Fills.required {read : Reader α} {document : Json} {value : α}
    (decodes : Decodes read document value) {name : String} {put : α → σ → σ} {required : Bool}
    {fields : List (Field σ)} {members : List (String × Json)} {record final : σ}
    (others : Fills fields members (put value record) final) :
    Fills (.of name read put required :: fields) ((name, document) :: members) record final :=
  @Fills.fill _ (.of name read put required) _ _ _ _ _ _
    (decodes_field decodes name put required) others

/-- A field whose value may be absent is filled if there is a value, and else as it was. -/
theorem Fills.optional {read : Reader β} {encode : α → Json} {value : Option α} {given : Option β}
    {meaning : α → β} (isGiven : value.map meaning = given)
    (decodes : ∀ found ∈ value, Decodes read (encode found) (meaning found))
    (present : ∀ found ∈ value, encode found ≠ .null) {name : String} {put : Option β → σ → σ}
    {fields : List (Field σ)} {members : List (String × Json)} {record final : σ}
    (absent : put none record = record)
    (others : Fills fields members (put given record) final) :
    Fills (.of name (.optional read) put :: fields)
      (optionalMember name value encode ++ members) record final := by
  subst isGiven
  cases value with
  | none =>
    rw [Option.map_none, absent] at others
    exact .skip rfl others
  | some found => exact .required (decodes_optional (decodes found rfl) (present found rfl)) others

/-- A field that is a list is filled by the list unless it is empty, and then as it was. -/
theorem Fills.list {read : Reader β} {encode : α → Json} {elements : List α} {values : List β}
    (each : List.Forall₂ (fun element value => Decodes read (encode element) value) elements values)
    {name : String} {put : List β → σ → σ} {fields : List (Field σ)}
    {members : List (String × Json)} {record final : σ} (absent : put [] record = record)
    (others : Fills fields members (put values record) final) :
    Fills (.of name (.list read) put :: fields)
      ((if elements.isEmpty then [] else [(name, .array (elements.map encode))]) ++ members)
        record final := by
  cases each with
  | nil =>
    rw [absent] at others
    exact .skip rfl others
  | cons here later =>
    refine .required (decodes_list ?_) others
    rw [List.forall₂_map_left_iff]
    exact .cons here later

/-- A field that is a list of texts is filled by the list unless it is empty, and then as it was. -/
theorem Fills.texts {name : String} {texts : List String} {put : List String → σ → σ}
    {fields : List (Field σ)} {members : List (String × Json)} {record final : σ}
    (absent : put [] record = record) (others : Fills fields members (put texts record) final) :
    Fills (.of name (.list .string) put :: fields) (listMember name texts ++ members) record final :=
  .list (List.forall₂_same.2 fun text _ => decodes_readerString text) absent others

end

end Json

end Midend
