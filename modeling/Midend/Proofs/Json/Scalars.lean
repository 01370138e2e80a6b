import Mathlib.Data.List.TakeWhile
import Midend.Json.Reader
import Midend.Proofs.Attempt

/-! # Numbers and texts in JSON

What is written for a number or a text is read as that number or text, whatever follows. A number is
taken as far as it goes, so what follows it must not carry it on (`EndsNumber`). Which numbers are
written in a way that gives them back is a matter of decimal arithmetic for floating-point numbers
(`Number.ReadsBack`); integers of 64 bits always are (`readsBack_integer`). -/

namespace Midend

namespace Json

/-- A value that was changed was read before. -/
theorem mapRead_eq_ok {α β : Type} {change : α → β} {read : Except Problem (α × List Char)}
    {answer : β} {rest : List Char} :
    mapRead change read = .ok (answer, rest) ↔
      ∃ value, read = .ok (value, rest) ∧ change value = answer := by
  cases read with
  | error problem => simp [mapRead]
  | ok taken =>
    obtain ⟨value, left⟩ := taken
    simp only [mapRead, Except.ok.injEq, Prod.mk.injEq]
    constructor
    · intro same
      exact ⟨value, ⟨rfl, same.2⟩, same.1⟩
    · rintro ⟨_, same, changed⟩
      exact ⟨same.1 ▸ changed, same.2⟩

/-! ## Digits -/

/-- Whether a text does not carry on a number in front of it. -/
def EndsNumber (text : List Char) : Prop :=
  ∀ char ∈ text.head?, char.isDigit = false ∧ char ≠ '.' ∧ char ≠ 'e' ∧ char ≠ 'E'

/-- Nothing carries on a number at the end of a text. -/
theorem endsNumber_nil : EndsNumber [] := nofun

/-- A number ends in front of a character that cannot belong to it. -/
theorem endsNumber_cons {char : Char} {text : List Char} :
    EndsNumber (char :: text) ↔
      char.isDigit = false ∧ char ≠ '.' ∧ char ≠ 'e' ∧ char ≠ 'E' := by
  simp [EndsNumber]

/-- Digits are taken as far as they go. -/
theorem readDigits_eq_ok {text digits rest : List Char} :
    readDigits text = .ok (digits, rest) ↔
      text.takeWhile Char.isDigit = digits ∧ text.dropWhile Char.isDigit = rest ∧ digits ≠ [] := by
  unfold readDigits
  constructor
  · intro read
    split at read
    · cases read
    · cases read
    · rename_i noDigits _
      cases read
      refine ⟨rfl, rfl, fun none => ?_⟩
      cases isRest : text.dropWhile Char.isDigit with
      | nil => exact noDigits none isRest
      | cons first rest => simp_all
  · rintro ⟨rfl, rfl, some⟩
    split
    · exact absurd ‹_› some
    · exact absurd ‹_› some
    · rfl

/-- Text that carries on no number takes no part in the digits in front of it. -/
theorem readDigits_append {text digits rest more : List Char} (ends : EndsNumber more)
    (read : readDigits text = .ok (digits, rest)) :
    readDigits (text ++ more) = .ok (digits, rest ++ more) := by
  obtain ⟨isDigits, isRest, some⟩ := readDigits_eq_ok.1 read
  have stops : more.takeWhile Char.isDigit = [] ∧ more.dropWhile Char.isDigit = more := by
    cases more with
    | nil => exact ⟨rfl, rfl⟩
    | cons first more => simp [(endsNumber_cons.1 ends).1]
  refine readDigits_eq_ok.2 ⟨?_, ?_, some⟩
  · rw [List.takeWhile_append, stops.1, ← isDigits]
    split
    · rename_i all
      rw [List.append_nil]
      exact ((List.takeWhile_prefix _).eq_of_length all).symm
    · rfl
  · rw [List.dropWhile_append, stops.2, isRest]
    split
    · rename_i isEmpty
      rw [List.isEmpty_iff.1 isEmpty, List.nil_append]
    · rfl

/-! ## Numbers -/

/-- What carries on no number is neither a fraction nor an exponent. -/
theorem EndsNumber.no_parts {text : List Char} (ends : EndsNumber text) :
    readFraction text = .ok (none, text) ∧ readExponent text = .ok (none, text) := by
  cases text with
  | nil => exact ⟨rfl, rfl⟩
  | cons first text =>
    obtain ⟨_, notPoint, notLower, notUpper⟩ := endsNumber_cons.1 ends
    constructor
    · unfold readFraction
      split
      · rename_i isCons
        exact absurd (List.cons.inj isCons).1 notPoint
      · rfl
    · unfold readExponent
      split
      · rename_i isCons
        exact absurd (List.cons.inj isCons).1 notLower
      · rename_i isCons
        exact absurd (List.cons.inj isCons).1 notUpper
      · rfl

/-- Digits that were taken and changed are not changed by text that carries on no number. -/
theorem mapRead_readDigits_append {α : Type} {change : List Char → α} {answer : α}
    {text rest more : List Char} (ends : EndsNumber more)
    (read : mapRead change (readDigits text) = .ok (answer, rest)) :
    mapRead change (readDigits (text ++ more)) = .ok (answer, rest ++ more) := by
  obtain ⟨digits, taken, rfl⟩ := mapRead_eq_ok.1 read
  rw [readDigits_append ends taken]
  rfl

theorem readWhole_append {text digits rest more : List Char} (ends : EndsNumber more)
    (read : readWhole text = .ok (digits, rest)) :
    readWhole (text ++ more) = .ok (digits, rest ++ more) := by
  unfold readWhole at read ⊢
  obtain ⟨⟨whole, left⟩, taken, fits⟩ := Attempt.bind_eq_ok.1 read
  rw [readDigits_append ends taken, Attempt.ok_bind]
  dsimp only at fits ⊢
  split at fits
  · cases fits
  · cases fits
    rfl

theorem readFraction_append {text rest more : List Char} {fraction : Option (List Char)}
    (ends : EndsNumber more) (read : readFraction text = .ok (fraction, rest)) :
    readFraction (text ++ more) = .ok (fraction, rest ++ more) := by
  cases text with
  | nil =>
    cases read
    exact ends.no_parts.1
  | cons first text =>
    unfold readFraction at read ⊢
    by_cases isPoint : first = '.'
    · subst isPoint
      exact mapRead_readDigits_append ends read
    · split at read
      · rename_i isCons
        exact absurd (List.cons.inj isCons).1 isPoint
      · cases read
        split
        · rename_i isCons
          exact absurd (List.cons.inj isCons).1 isPoint
        · rfl

theorem readSignedDigits_append {text rest more : List Char} {exponent : Option Int}
    (ends : EndsNumber more) (read : readSignedDigits text = .ok (exponent, rest)) :
    readSignedDigits (text ++ more) = .ok (exponent, rest ++ more) := by
  cases text with
  | nil => cases read
  | cons first text =>
    by_cases isPlus : first = '+'
    · subst isPlus
      exact mapRead_readDigits_append ends read
    · by_cases isMinus : first = '-'
      · subst isMinus
        exact mapRead_readDigits_append ends read
      · have bare : ∀ text, readSignedDigits (first :: text) =
            mapRead (fun digits => some (digitsValue digits : Int)) (readDigits (first :: text)) := by
          intro text
          unfold readSignedDigits
          split <;> simp_all
        rw [bare] at read
        rw [List.cons_append, bare]
        exact mapRead_readDigits_append ends read

theorem readExponent_append {text rest more : List Char} {exponent : Option Int}
    (ends : EndsNumber more) (read : readExponent text = .ok (exponent, rest)) :
    readExponent (text ++ more) = .ok (exponent, rest ++ more) := by
  cases text with
  | nil =>
    cases read
    exact ends.no_parts.2
  | cons first text =>
    by_cases isLower : first = 'e'
    · subst isLower
      exact readSignedDigits_append ends read
    · by_cases isUpper : first = 'E'
      · subst isUpper
        exact readSignedDigits_append ends read
      · have absent : ∀ text, readExponent (first :: text) = .ok (none, first :: text) := by
          intro text
          unfold readExponent
          split <;> simp_all
        rw [absent] at read
        cases read
        rw [List.cons_append, absent]

/-- Text that carries on no number takes no part in the number in front of it. -/
theorem readNumber_append {negative : Bool} {text rest more : List Char} {number : Number}
    (ends : EndsNumber more) (read : readNumber negative text = .ok (number, rest)) :
    readNumber negative (text ++ more) = .ok (number, rest ++ more) := by
  unfold readNumber at read ⊢
  obtain ⟨⟨whole, afterWhole⟩, isWhole, read⟩ := Attempt.bind_eq_ok.1 read
  obtain ⟨⟨fraction, afterFraction⟩, isFraction, read⟩ := Attempt.bind_eq_ok.1 read
  obtain ⟨⟨exponent, afterExponent⟩, isExponent, read⟩ := Attempt.bind_eq_ok.1 read
  rw [readWhole_append ends isWhole, Attempt.ok_bind]
  dsimp only
  rw [readFraction_append ends isFraction, Attempt.ok_bind]
  dsimp only
  rw [readExponent_append ends isExponent, Attempt.ok_bind]
  dsimp only at read ⊢
  split at read
  · cases read
    rfl
  · cases read

/-! ## Integers -/

/-- The digits of a number denote it. -/
theorem digitsValue_toDigits (value : Nat) : digitsValue (Nat.toDigits 10 value) = value := by
  have denoted := @Nat.ofDigitChars_ten_toDigits value
  rw [Nat.ofDigitChars_eq_foldl] at denoted
  simpa only [digitsValue, Nat.mul_comm] using denoted

/-- The digits of a number begin with a zero only if there are no more. -/
theorem toDigits_eq_zero_cons {value : Nat} {rest : List Char}
    (leads : Nat.toDigits 10 value = '0' :: rest) : rest = [] := by
  induction value using Nat.strong_induction_on generalizing rest with
  | h value valueIH =>
    rw [Nat.toDigits_eq_if (by decide)] at leads
    split at leads
    · exact (List.cons.inj leads).2.symm
    · rename_i large
      cases front : Nat.toDigits 10 (value / 10) with
      | nil => exact absurd front Nat.toDigits_ne_nil
      | cons first others =>
        rw [front, List.cons_append] at leads
        obtain ⟨rfl, _⟩ := List.cons.inj leads
        -- Nothing else stands before the last digit, so it is the only one.
        have alone := valueIH (value / 10) (by omega) front
        have isValue := digitsValue_toDigits (value / 10)
        rw [front, alone] at isValue
        have isZero : value / 10 = 0 := isValue.symm
        omega

/-- The digits of a number are read as its whole part. -/
theorem readWhole_toDigits (value : Nat) {rest : List Char} (ends : EndsNumber rest) :
    readWhole (Nat.toDigits 10 value ++ rest) = .ok (Nat.toDigits 10 value, rest) := by
  have allDigits : ∀ char ∈ Nat.toDigits 10 value, char.isDigit = true :=
    fun char member => Nat.isDigit_of_mem_toDigits (by decide) (by decide) member
  have taken : readDigits (Nat.toDigits 10 value) = .ok (Nat.toDigits 10 value, []) :=
    readDigits_eq_ok.2 ⟨List.takeWhile_eq_self_iff.2 allDigits, List.dropWhile_eq_nil_iff.2 allDigits,
      Nat.toDigits_ne_nil⟩
  have alone : readWhole (Nat.toDigits 10 value) = .ok (Nat.toDigits 10 value, []) := by
    unfold readWhole
    rw [taken, Attempt.ok_bind]
    dsimp only
    split
    · rename_i isCons
      cases toDigits_eq_zero_cons isCons
    · rfl
  have before := readWhole_append ends alone
  rwa [List.nil_append] at before

/-- The digits of a number are read as the number that they make with the sign. -/
theorem readNumber_toDigits (negative : Bool) (value : Nat) {number : Number} {rest : List Char}
    (ends : EndsNumber rest)
    (makes : makeNumber? negative (Nat.toDigits 10 value) none none = some number) :
    readNumber negative (Nat.toDigits 10 value ++ rest) = .ok (number, rest) := by
  unfold readNumber
  rw [readWhole_toDigits value ends, Attempt.ok_bind]
  dsimp only
  rw [ends.no_parts.1, Attempt.ok_bind]
  dsimp only
  rw [ends.no_parts.2, Attempt.ok_bind]
  dsimp only
  rw [makes]

/-- A natural number of 64 bits is read as written. -/
theorem readNumber_natural {value : Nat} (small : value < Nat.pow 2 64) {rest : List Char}
    (ends : EndsNumber rest) :
    readNumber false (Nat.toDigits 10 value ++ rest) = .ok (.integer value, rest) := by
  refine readNumber_toDigits false value ends ?_
  rw [makeNumber?, digitsValue_toDigits]
  simp [small]

/-- A negative number of 64 bits is read as written. -/
theorem readNumber_negative {value : Nat} (positive : 0 < value) (small : value ≤ Nat.pow 2 63)
    {rest : List Char} (ends : EndsNumber rest) :
    readNumber true (Nat.toDigits 10 value ++ rest) = .ok (.integer (-(value : Int)), rest) := by
  refine readNumber_toDigits true value ends ?_
  rw [makeNumber?, digitsValue_toDigits]
  simp [positive, small]

/-! ## Texts -/

/-- A hexadecimal digit has the value that it was written for. -/
theorem hexValue?_hexDigit (value : Nat) : hexValue? (hexDigit value) = some (value % 16) := by
  have small : ∀ digit < 16, hexValue? (Nat.digitChar digit) = some digit := by decide
  exact small _ (Nat.mod_lt _ (by decide))

/-- A character is taken as it was written inside quotes. -/
theorem readCharacters_escapeChar (budget : Nat) (read : List Char) (char : Char)
    (rest : List Char) :
    readCharacters (budget + 1) read (escapeChar char ++ rest) =
      readCharacters budget (char :: read) rest := by
  have same : ∀ {code : Nat}, char.toNat = code → Char.ofNat code = char := by
    rintro _ rfl
    exact Char.ofNat_toNat char
  unfold escapeChar
  split
  · rfl
  · rfl
  · rfl
  · rfl
  · rfl
  · rename_i notQuote notBackslash _ _ _
    split
    · rename_i isBackspace
      rw [← same isBackspace]
      rfl
    · split
      · rename_i isFormFeed
        rw [← same isFormFeed]
        rfl
      · split
        · -- The code of a control character takes two of the four digits.
          rename_i isControl
          have unit : ((0 * 16 + 0) * 16 + char.toNat / 16 % 16) * 16 + char.toNat % 16 =
              char.toNat := by omega
          have isHex : readHex ('0' :: '0' :: hexDigit (char.toNat / 16) :: hexDigit char.toNat ::
              rest) = .ok (char.toNat, rest) := by
            have zero : hexValue? '0' = some 0 := by decide
            rw [readHex, zero, hexValue?_hexDigit, hexValue?_hexDigit]
            dsimp only
            rw [unit]
          have isPoint : readCodePoint ('0' :: '0' :: hexDigit (char.toNat / 16) ::
              hexDigit char.toNat :: rest) = .ok (char, rest) := by
            -- It is no half of a pair, so no second escape is asked for.
            have noPair : isHighSurrogate char.toNat = false ∧ isLowSurrogate char.toNat = false := by
              simp [isHighSurrogate, isLowSurrogate]
              omega
            unfold readCodePoint
            rw [isHex, Attempt.ok_bind]
            simp [noPair]
          simp only [List.cons_append, List.nil_append]
          rw [readCharacters]
          rw [isPoint]
        · rename_i printed
          rw [List.singleton_append, readCharacters]
          · rw [if_neg printed]
          · exact notQuote
          · exact notBackslash

/-- The characters of a text are taken as they were written inside quotes, up to the closing one. -/
theorem readCharacters_escaped {budget : Nat} {text : List Char} (enough : text.length < budget)
    (read rest : List Char) :
    readCharacters budget read (text.flatMap escapeChar ++ '"' :: rest) =
      .ok (String.ofList (read.reverse ++ text), rest) := by
  induction text generalizing budget read with
  | nil =>
    obtain ⟨budget, rfl⟩ := Nat.exists_eq_succ_of_ne_zero (Nat.ne_of_gt enough)
    rw [List.append_nil]
    rfl
  | cons char text textIH =>
    obtain ⟨budget, rfl⟩ := Nat.exists_eq_succ_of_ne_zero (Nat.ne_of_gt (Nat.zero_lt_of_lt enough))
    rw [List.flatMap_cons, List.append_assoc, readCharacters_escapeChar,
      textIH (Nat.lt_of_succ_lt_succ enough), List.reverse_cons, List.append_assoc,
      List.singleton_append]

/-- Every character is written with at least one. -/
theorem length_le_length_escaped (text : List Char) :
    text.length ≤ (text.flatMap escapeChar).length := by
  induction text with
  | nil => exact Nat.le_refl _
  | cons char text textIH =>
    have some : 0 < (escapeChar char).length := by
      unfold escapeChar
      repeat' split
      all_goals exact Nat.succ_pos _
    rw [List.flatMap_cons, List.length_append, List.length_cons]
    omega

/-- The characters of a quoted text. -/
theorem toList_quote (text : String) :
    (quote text).toList = '"' :: (text.toList.flatMap escapeChar ++ ['"']) := by
  simp [quote]

/-- A quoted text is read as written. -/
theorem readText_quoted (text : String) (rest : List Char) :
    readText (text.toList.flatMap escapeChar ++ '"' :: rest) = .ok (text, rest) := by
  have enough : text.toList.length <
      (text.toList.flatMap escapeChar ++ '"' :: rest).length + 1 := by
    have shorter := length_le_length_escaped text.toList
    rw [List.length_append]
    omega
  rw [readText, readCharacters_escaped enough, List.reverse_nil, List.nil_append,
    String.ofList_toList]

end Json

end Midend
