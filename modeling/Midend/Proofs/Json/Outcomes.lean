import Midend.Json.Reader
import Midend.Proofs.Json.Printed

/-! # What readers can give

A reader that gives something for some text gives only good things when its parts do: a list of good
elements, a record whose fields are put into it in a good way (`gives_record`). What is good may
depend on how many more levels of nesting are allowed (`givesAt_record`). Numbers are never infinite
and never invalid, as those have no decimal and too large ones are refused, and documents are nested
no deeper than allowed (`givesAt_readAny`). -/

namespace Midend

/-! ## Finite numbers -/

namespace Binary64

/-- The bit patterns below that of the infinities are those of finite numbers. -/
theorem isFinite_ofMagnitude (negative : Bool) {magnitude : Nat}
    (small : magnitude < topExponent * Nat.pow 2 fractionBits) :
    (ofMagnitude negative magnitude).isFinite = true := by
  have bound : magnitude < 9218868437227405312 := small
  have field : (ofMagnitude negative magnitude).exponentField = magnitude / 4503599627370496 := by
    unfold exponentField ofMagnitude
    rw [UInt64.toNat_ofNat']
    show (if negative = true then magnitude + 9223372036854775808 else magnitude) %
      18446744073709551616 / 4503599627370496 % 2048 = _
    split <;> omega
  rw [isFinite, field]
  have notTop : magnitude / 4503599627370496 ≠ 2047 := by omega
  simpa [topExponent] using notTop

/-- Rounding a quotient gives a finite number. -/
theorem isFinite_of_ofRatio? {negative : Bool} {numerator denominator : Nat} {value : Binary64}
    (rounded : ofRatio? negative numerator denominator = some value) : value.isFinite = true := by
  obtain ⟨magnitude, isRounded⟩ : ∃ magnitude, ofRatio? negative numerator denominator =
      if numerator = 0 then some (zero negative)
      else if topExponent * Nat.pow 2 fractionBits ≤ magnitude then none
      else some (ofMagnitude negative magnitude) := ⟨_, rfl⟩
  rw [isRounded] at rounded
  split at rounded
  · cases rounded
    exact isFinite_ofMagnitude negative (by decide)
  · split at rounded
    · cases rounded
    · rename_i fits
      cases rounded
      exact isFinite_ofMagnitude negative (Nat.lt_of_not_le fits)

/-- The number nearest to an integer is finite. -/
theorem isFinite_ofInt (value : Int) : (ofInt value).isFinite = true := by
  unfold ofInt
  cases rounded : ofRatio? (value < 0) value.natAbs 1 with
  | none => exact isFinite_ofMagnitude false (by decide)
  | some nearest => exact isFinite_of_ofRatio? rounded

/-- A decimal gives a finite number. -/
theorem isFinite_of_ofDecimal? {negative : Bool} {digits : Nat} {exponent : Int} {value : Binary64}
    (read : ofDecimal? negative digits exponent = some value) : value.isFinite = true := by
  unfold ofDecimal? at read
  obtain ⟨start, isStart, read⟩ := Option.bind_eq_some_iff.1 read
  split at read
  · cases read
    exact isFinite_of_ofRatio? isStart
  · split at read
    · split at read
      · exact isFinite_of_ofRatio? read
      · cases read
    · split at read
      · exact isFinite_of_ofRatio? read
      · split at read
        · obtain ⟨middle, _, read⟩ := Option.bind_eq_some_iff.1 read
          exact isFinite_of_ofRatio? read
        · cases read
          exact isFinite_ofMagnitude negative (by decide)

end Binary64

namespace Json

/-- Whether a number is neither infinite nor an invalid one. -/
def Number.Finite : Number → Prop
  | .integer _ => True
  | .float value => value.isFinite = true

/-- A number that is read is finite. -/
theorem finite_of_readNumber {negative : Bool} {text rest : List Char} {number : Number}
    (read : readNumber negative text = .ok (number, rest)) : number.Finite := by
  unfold readNumber at read
  obtain ⟨⟨whole, afterWhole⟩, _, read⟩ := Attempt.bind_eq_ok.1 read
  obtain ⟨⟨fraction, afterFraction⟩, _, read⟩ := Attempt.bind_eq_ok.1 read
  obtain ⟨⟨exponent, afterExponent⟩, _, read⟩ := Attempt.bind_eq_ok.1 read
  have floats : ∀ {fraction : List Char} {exponent : Int},
      (makeFloat? negative whole fraction exponent).map Number.float = some number →
        number.Finite := by
    intro fraction exponent made
    obtain ⟨value, isValue, rfl⟩ := Option.map_eq_some_iff.1 made
    exact Binary64.isFinite_of_ofDecimal? isValue
  dsimp only at read
  split at read
  · rename_i made
    cases read
    unfold makeNumber? at made
    split at made
    · dsimp only at made
      split at made
      · cases made
        trivial
      · split at made
        · cases made
          trivial
        · exact floats made
    · exact floats made
  · cases read

/-! ## Good values -/

section

variable {α β σ : Type}

/-- Whatever a reader gives is good when so many more levels of nesting are allowed. -/
def GivesAt (nesting : Nat) (read : Reader α) (good : α → Prop) : Prop :=
  ∀ text value rest, read nesting text = .ok (value, rest) → good value

/-- Whatever a reader gives is good. -/
def Gives (read : Reader α) (good : α → Prop) : Prop := ∀ nesting, GivesAt nesting read good

/-- A value of another shape than wanted is refused. -/
theorem refuse_ne_ok {text : List Char} {answer : α × List Char} :
    refuse text ≠ .ok answer := by
  intro read
  unfold refuse at read
  split at read
  · cases read
  · cases read
  · split at read <;> cases read

/-- The elements of a list are good when what is taken for each of them is. -/
theorem good_of_readElements {take : List Char → Except Problem (α × List Char)} {good : α → Prop}
    (each : ∀ {text value rest}, take text = .ok (value, rest) → good value) {budget : Nat}
    {isFirst : Bool} {text rest : List Char} {values : List α}
    (read : readElements take budget isFirst text = .ok (values, rest)) :
    ∀ value ∈ values, good value := by
  induction budget generalizing isFirst text values rest with
  | zero => cases read
  | succ budget budgetIH =>
    rw [readElements] at read
    split at read
    · cases read
    · cases read
      exact fun value member => absurd member List.not_mem_nil
    · split at read
      · cases read
      · rename_i taken
        obtain ⟨others, readOthers, rfl⟩ := mapRead_eq_ok.1 read
        exact List.forall_mem_cons.2 ⟨each taken, budgetIH readOthers⟩

/-- The elements of a list are good when what is taken for each of them is. -/
theorem good_of_readListBody {take : List Char → Except Problem (α × List Char)} {good : α → Prop}
    (each : ∀ {text value rest}, take text = .ok (value, rest) → good value) {text rest : List Char}
    {values : List α} (read : readListBody take text = .ok (values, rest)) :
    ∀ value ∈ values, good value := by
  unfold readListBody at read
  obtain ⟨⟨found, after⟩, isFound, read⟩ := Attempt.bind_eq_ok.1 read
  obtain ⟨_, _, same⟩ := Attempt.bind_eq_ok.1 read
  cases same
  exact good_of_readElements each isFound

/-- What members of an object make of a good state is good when each of them keeps it so. -/
theorem good_of_readMembers
    {start : String → σ → Except Problem (List Char → Except Problem (σ × List Char))}
    {good : σ → Prop} (each : ∀ {name state take text next rest}, start name state = .ok take →
      good state → take text = .ok (next, rest) → good next)
    {budget : Nat} {isFirst : Bool} {state final : σ} {text rest : List Char} (isGood : good state)
    (read : readMembers start budget isFirst state text = .ok (final, rest)) : good final := by
  induction budget generalizing isFirst text state with
  | zero => cases read
  | succ budget budgetIH =>
    rw [readMembers] at read
    split at read
    · cases read
    · cases read
      exact isGood
    · split at read
      · cases read
      · rename_i starts
        split at read
        · cases read
        · split at read
          · cases read
          · rename_i taken
            exact budgetIH (each starts isGood taken) read

/-- Whatever document is read, its numbers are finite, and it is nested no deeper than allowed. -/
theorem givesAt_readAny (nesting : Nat) : GivesAt nesting readAny fun document =>
    document.EachNumber Number.Finite ∧ document.nesting ≤ nesting := by
  -- By induction on the nesting that is allowed, which is lower in a list or an object.
  induction nesting using Nat.strong_induction_on with
  | h nesting nestingIH =>
    intro text value rest read
    unfold readAny at read
    split at read
    · cases read
    · obtain ⟨_, _, same⟩ := Attempt.bind_eq_ok.1 read
      cases same
      exact ⟨trivial, Nat.zero_le _⟩
    · obtain ⟨_, _, same⟩ := Attempt.bind_eq_ok.1 read
      cases same
      exact ⟨trivial, Nat.zero_le _⟩
    · obtain ⟨_, _, same⟩ := Attempt.bind_eq_ok.1 read
      cases same
      exact ⟨trivial, Nat.zero_le _⟩
    · obtain ⟨_, _, rfl⟩ := mapRead_eq_ok.1 read
      exact ⟨trivial, Nat.zero_le _⟩
    · obtain ⟨_, isRead, rfl⟩ := mapRead_eq_ok.1 read
      exact ⟨finite_of_readNumber isRead, Nat.zero_le _⟩
    · split at read
      · cases read
      · obtain ⟨elements, isRead, rfl⟩ := mapRead_eq_ok.1 read
        have good := good_of_readListBody
          (fun taken => nestingIH _ (Nat.lt_succ_self _) _ _ _ taken) isRead
        exact ⟨eachNumberOfElements_iff.2 fun element member => (good element member).1,
          Nat.succ_le_succ (nestingOfElements_le_iff.2 fun element member => (good element member).2)⟩
    · split at read
      · cases read
      · rename_i lower
        obtain ⟨⟨members, left⟩, isRead, read⟩ := Attempt.bind_eq_ok.1 read
        obtain ⟨_, _, same⟩ := Attempt.bind_eq_ok.1 read
        cases same
        -- Members are collected in a list, all of which is good at every stage.
        have good : ∀ member ∈ members,
            member.2.EachNumber Number.Finite ∧ member.2.nesting ≤ lower := by
          refine @good_of_readMembers _ _ (fun members : List (String × Json) => ∀ member ∈ members,
            member.2.EachNumber Number.Finite ∧ member.2.nesting ≤ lower) ?_ _ _ _ _ _ _
              (fun member none => absurd none List.not_mem_nil) isRead
          intro name state take text next rest starts isGood taken
          cases starts
          obtain ⟨value, isValue, rfl⟩ := mapRead_eq_ok.1 taken
          exact List.forall_mem_cons.2 ⟨nestingIH _ (Nat.lt_succ_self _) _ _ _ isValue, isGood⟩
        exact ⟨eachNumberOfMembers_iff.2 fun member isMember =>
            (good member (List.mem_reverse.1 isMember)).1,
          Nat.succ_le_succ (nestingOfMembers_le_iff.2 fun member isMember =>
            (good member (List.mem_reverse.1 isMember)).2)⟩
    · split at read
      · obtain ⟨_, isRead, rfl⟩ := mapRead_eq_ok.1 read
        exact ⟨finite_of_readNumber isRead, Nat.zero_le _⟩
      · cases read

/-- Whatever document is read, its numbers are finite. -/
theorem gives_readAny : Gives readAny (EachNumber Number.Finite) :=
  fun nesting text value rest read => (givesAt_readAny nesting text value rest read).1

/-- Natural numbers are below their limit. -/
theorem gives_natural {limit : Nat} (some : 0 < limit) : Gives (Reader.natural limit) (· < limit) := by
  intro nesting text value rest read
  unfold Reader.natural at read
  split at read
  · cases read
  · split at read
    · obtain ⟨⟨number, left⟩, _, read⟩ := Attempt.bind_eq_ok.1 read
      dsimp only at read
      split at read
      · split at read
        · rename_i low
          cases read
          omega
        · cases read
      · cases read
    · exact absurd read refuse_ne_ok

/-- A value that may be absent is good if it is there. -/
theorem GivesAt.optional {nesting : Nat} {read : Reader α} {good : α → Prop}
    (gives : GivesAt nesting read good) :
    GivesAt nesting (Reader.optional read) fun found => ∀ value ∈ found, good value := by
  intro text found rest isRead
  unfold Reader.optional at isRead
  split at isRead
  · obtain ⟨_, _, same⟩ := Attempt.bind_eq_ok.1 isRead
    cases same
    exact fun value none => absurd none (Option.not_mem_none value)
  · obtain ⟨value, taken, rfl⟩ := mapRead_eq_ok.1 isRead
    intro other same
    obtain rfl := Option.some.inj same
    exact gives _ _ _ taken

/-- A value that may be absent is good if it is there. -/
theorem Gives.optional {read : Reader α} {good : α → Prop} (gives : Gives read good) :
    Gives (Reader.optional read) fun found => ∀ value ∈ found, good value :=
  fun nesting => (gives nesting).optional

/-- Lists have good elements, which are nested one level less deep. -/
theorem GivesAt.list {nesting : Nat} {read : Reader α} {good : α → Prop}
    (gives : ∀ lower, nesting = lower + 1 → GivesAt lower read good) :
    GivesAt nesting (Reader.list read) fun values => ∀ value ∈ values, good value := by
  intro text values rest isRead
  unfold Reader.list at isRead
  split at isRead
  · unfold nested at isRead
    split at isRead
    · cases isRead
    · exact good_of_readListBody (fun taken => gives _ rfl _ _ _ taken) isRead
  · exact absurd isRead refuse_ne_ok

/-- Lists have good elements. -/
theorem Gives.list {read : Reader α} {good : α → Prop} (gives : Gives read good) :
    Gives (Reader.list read) fun values => ∀ value ∈ values, good value :=
  fun _ => .list fun lower _ => gives lower

/-- A field is put into records in a way that keeps them good when it is so with good values. -/
theorem GivesAt.field {nesting : Nat} {read : Reader α} {fits : α → Prop} {good : σ → Prop}
    (gives : GivesAt nesting read fits) {put : α → σ → σ}
    (keeps : ∀ value, fits value → ∀ record, good record → good (put value record))
    (name : String) (required : Bool) : GivesAt nesting (Field.of name read put required).read
      fun put => ∀ record, good record → good (put record) := by
  intro text change rest isRead
  obtain ⟨value, taken, rfl⟩ := mapRead_eq_ok.1 isRead
  exact keeps value (gives _ _ _ taken)

/-- A field is put into records in a way that keeps them good when it is so with good values. -/
theorem Gives.field {read : Reader α} {fits : α → Prop} {good : σ → Prop} (gives : Gives read fits)
    {put : α → σ → σ} (keeps : ∀ value, fits value → ∀ record, good record → good (put value record))
    (name : String) (required : Bool) :
    Gives (Field.of name read put required).read fun put => ∀ record, good record → good (put record) :=
  fun nesting => (gives nesting).field keeps name required

/-- A record that is written as a list is good when all fields are put into it in a way that keeps it
good. -/
theorem good_of_readPositional {nesting : Nat} {fields : List (Field σ)} {good : σ → Prop}
    (each : ∀ field ∈ fields, GivesAt nesting field.read fun put =>
      ∀ record, good record → good (put record))
    {isFirst : Bool} {record final : σ} {text rest : List Char} (isGood : good record)
    (read : readPositional nesting fields isFirst record text = .ok (final, rest)) : good final := by
  induction fields generalizing isFirst record text with
  | nil =>
    cases read
    exact isGood
  | cons field fields fieldsIH =>
    rw [List.forall_mem_cons] at each
    rw [readPositional] at read
    split at read
    · cases read
    · split at read
      · cases read
      · exact fieldsIH each.2 isGood read
    · split at read
      · cases read
      · rename_i taken
        exact fieldsIH each.2 (each.1 _ _ _ taken record isGood) read

/-- Records are good when all fields are put into them in a way that keeps them good. Fields are
nested one level less deep. -/
theorem givesAt_record {nesting : Nat} {blank : σ} {fields : List (Field σ)} {good : σ → Prop}
    (isBlank : good blank)
    (each : ∀ lower, nesting = lower + 1 → ∀ field ∈ fields, GivesAt lower field.read fun put =>
      ∀ record, good record → good (put record)) :
    GivesAt nesting (Reader.record blank fields) good := by
  intro text value rest read
  unfold Reader.record at read
  split at read
  · unfold nested at read
    split at read
    · cases read
    · obtain ⟨⟨record, left⟩, isRead, read⟩ := Attempt.bind_eq_ok.1 read
      obtain ⟨_, _, same⟩ := Attempt.bind_eq_ok.1 read
      cases same
      exact good_of_readPositional (each _ rfl) isBlank isRead
  · unfold nested at read
    split at read
    · cases read
    · obtain ⟨⟨⟨record, given⟩, left⟩, isRead, read⟩ := Attempt.bind_eq_ok.1 read
      dsimp only at read
      split at read
      · obtain ⟨_, _, same⟩ := Attempt.bind_eq_ok.1 read
        cases same
        -- Names that were given already are kept beside the record; they have no part in what is
        -- good.
        refine @good_of_readMembers _ _ (fun state : σ × List String => good state.1) ?_ _ _ _ _ _ _
          isBlank isRead
        intro name state take text next rest starts isGood taken
        unfold startMember at starts
        split at starts
        · rename_i field found
          split at starts
          · cases starts
          · cases starts
            obtain ⟨put, isPut, rfl⟩ := mapRead_eq_ok.1 taken
            exact each _ rfl field (List.mem_of_find?_eq_some found) _ _ _ isPut state.1 isGood
        · cases starts
          obtain ⟨_, _, same⟩ := Attempt.bind_eq_ok.1 taken
          cases same
          exact isGood
      · cases read
  · exact absurd read refuse_ne_ok

/-- Records are good when all fields are put into them in a way that keeps them good. -/
theorem gives_record {blank : σ} {fields : List (Field σ)} {good : σ → Prop} (isBlank : good blank)
    (each : ∀ field ∈ fields, Gives field.read fun put => ∀ record, good record → good (put record)) :
    Gives (Reader.record blank fields) good :=
  fun _ => givesAt_record isBlank fun lower _ field member => each field member lower

end

end Json

end Midend
