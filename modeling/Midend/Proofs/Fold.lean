import Midend.Fold
import Midend.Proofs.Semantics.Value
import Mathlib.Data.List.Forall2

/-! # Correctness of constant folding

Folding an operation gives the constant that a run would compute, wherever the run computes anything
(`fold_sound`). Floating-point numbers must not be compared with `eq` and `ne`, which fold by the bits
of constants: on a machine that compares them by their values, folding is wrong exactly where bits and
values differ (`fold_agrees_iff`). -/

namespace Midend

/-- What is known about an operand is right. -/
def Knows (arg : Option Literal) (value : Value) : Prop :=
  ∀ literal, arg = some literal → value = literal.toValue

/-- What is known about two operands. -/
theorem exists_pair_of_knows {args : List (Option Literal)} {left right : Value}
    (known : List.Forall₂ Knows args [left, right]) :
    ∃ first second, args = [first, second] ∧ Knows first left ∧ Knows second right := by
  rcases known with _ | ⟨atFirst, _ | ⟨atSecond, ⟨⟩⟩⟩
  exact ⟨_, _, rfl, atFirst, atSecond⟩

/-- A known operand that is a truth value is known as that one. -/
theorem bool?_of_knows {arg : Option Literal} {value : Bool} (knows : Knows arg (.bool value)) :
    arg.bind Literal.bool? = none ∨ arg.bind Literal.bool? = some value := by
  cases arg with
  | none => exact .inl rfl
  | some literal =>
    have same := knows literal rfl
    cases literal <;> simp_all [Literal.toValue, Literal.bool?]

/-- A conjunction or disjunction with an absorbing operand is decided by it. -/
theorem foldLogic_sound {absorbing left right : Bool} {args : List (Option Literal)}
    {literal : Literal} (known : List.Forall₂ Knows args [.bool left, .bool right])
    (folded : foldLogic absorbing args = some literal) :
    literal = .bool (if left = absorbing ∨ right = absorbing then absorbing else !absorbing) := by
  obtain ⟨first, second, rfl, atFirst, atSecond⟩ := exists_pair_of_knows known
  unfold foldLogic knownBools at folded
  simp only [List.map_cons, List.map_nil] at folded
  rcases bool?_of_knows atFirst with first | first <;>
    rcases bool?_of_knows atSecond with second | second <;>
    rw [first, second] at folded <;> cases absorbing <;> cases left <;> cases right <;> simp_all

/-- An operation on two known integers is what a run makes of them. -/
theorem map_toValue_foldInts (op : Opcode) (left right : Int64) :
    (foldInts op left right).map Literal.toValue = Machine.applyInts op left right := by
  cases op <;> try rfl
  case div =>
    simp only [foldInts, Machine.applyInts]
    split <;> rfl

/-- A comparison of a value with itself comes out as it must. -/
theorem reflexive?_sound {floats : FloatOps} {op : Opcode} {operand value : Value} {answer : Bool}
    (applied : (Machine.mk floats false).apply op [operand, operand] = some value)
    (reflexive : reflexive? op = some answer) : value = .bool answer := by
  cases op <;> cases reflexive <;> cases operand <;>
    simp_all [Machine.apply, Machine.compare?, Machine.applyInts, Machine.applyBools,
      Machine.applyFloats]

/-- Constants that are not floating-point numbers compare as they are written. -/
theorem compare?_toValue {floats : FloatOps} {left right : Literal} {equal : Bool}
    (sameTy : left.ty = right.ty)
    (compared : (Machine.mk floats false).compare? left.toValue right.toValue = some equal) :
    equal = decide (left = right) := by
  cases left <;> cases right <;>
    simp_all [Literal.ty, Literal.toValue, Machine.compare?]

/-- An operation other than a negation has two operands. -/
theorem exists_pair_of_apply {machine : Machine} {op : Opcode} {values : List Value} {value : Value}
    (notNot : op ≠ .not) (applied : machine.apply op values = some value) :
    ∃ left right, values = [left, right] := by
  unfold Machine.apply at applied
  split at applied
  · rw [if_neg notNot] at applied
    cases applied
  · exact ⟨_, _, rfl⟩
  · cases applied

/-- A conjunction or disjunction has truth values for operands, and one operand may decide it. -/
theorem exists_bools_of_apply {floats : FloatOps} {op : Opcode} {values : List Value} {value : Value}
    {absorbing : Bool} (isLogic : op = .and ∧ absorbing = false ∨ op = .or ∧ absorbing = true)
    (applied : (Machine.mk floats false).apply op values = some value) :
    ∃ left right, values = [.bool left, .bool right] ∧
      value = .bool (if left = absorbing ∨ right = absorbing then absorbing else !absorbing) := by
  obtain ⟨left, right, rfl⟩ := exists_pair_of_apply
    (by rcases isLogic with ⟨rfl, _⟩ | ⟨rfl, _⟩ <;> decide) applied
  rcases isLogic with ⟨rfl, rfl⟩ | ⟨rfl, rfl⟩
  all_goals
    cases left <;> cases right <;>
      simp only [Machine.apply, reduceCtorEq, if_false, Machine.applyInts, Machine.applyBools,
        Machine.applyFloats, Option.some.injEq] at applied
    rename_i left right
    refine ⟨left, right, rfl, applied.symm.trans ?_⟩
    cases left <;> cases right <;> rfl

/-- A comparison of two constants of one type comes out as they are written. -/
theorem apply_equality {floats : FloatOps} {op : Opcode} {left right : Literal} {value : Value}
    (isEquality : op = .eq ∨ op = .ne) (sameTy : left.ty = right.ty)
    (applied : (Machine.mk floats false).apply op [left.toValue, right.toValue] = some value) :
    value = .bool (decide (left = right) == decide (op = .eq)) := by
  rcases isEquality with rfl | rfl
  · simp only [Machine.apply, if_true] at applied
    obtain ⟨equal, compared, rfl⟩ := Option.map_eq_some_iff.1 applied
    rw [compare?_toValue sameTy compared]
    simp
  · simp only [Machine.apply, reduceCtorEq, if_false, if_true] at applied
    obtain ⟨equal, compared, rfl⟩ := Option.map_eq_some_iff.1 applied
    rw [compare?_toValue sameTy compared]
    simp

/-- Folding gives the constant that a run computes. -/
theorem fold_sound {floats : FloatOps} {op : Opcode} {args : List (Option Literal)} {same : Bool}
    {values : List Value} {value : Value} {literal : Literal}
    (known : List.Forall₂ Knows args values)
    (areSame : same = true → ∃ operand, values = [operand, operand])
    (applied : (Machine.mk floats false).apply op values = some value)
    (folded : fold op args same = some literal) : value = literal.toValue := by
  unfold fold at folded
  split at folded
  · -- A negation of a known truth value.
    split at folded
    · rename_i operand
      obtain rfl := Option.some.inj folded
      rcases known with _ | ⟨knows, ⟨⟩⟩
      rw [knows _ rfl] at applied
      simpa [Machine.apply, Literal.toValue, eq_comm] using applied
    · cases folded
  · obtain ⟨left, right, rfl, rfl⟩ := exists_bools_of_apply (.inl ⟨rfl, rfl⟩) applied
    rw [foldLogic_sound known folded]
    rfl
  · obtain ⟨left, right, rfl, rfl⟩ := exists_bools_of_apply (.inr ⟨rfl, rfl⟩) applied
    rw [foldLogic_sound known folded]
    rfl
  · rename_i notNot _ _
    obtain ⟨left, right, rfl⟩ := exists_pair_of_apply notNot applied
    obtain ⟨first, second, rfl, atFirst, atSecond⟩ := exists_pair_of_knows known
    split at folded
    · -- The operands are one value, which need not be known.
      rename_i answer reflexive
      obtain ⟨operand, isPair⟩ := areSame rfl
      obtain ⟨rfl, rest⟩ := List.cons.inj isPair
      obtain ⟨rfl, _⟩ := List.cons.inj rest
      rw [reflexive?_sound applied reflexive, ← Option.some.inj folded]
      rfl
    · split at folded
      · rename_i isEquality
        split at folded
        · rename_i leftLiteral rightLiteral isPair
          obtain ⟨rfl, rest⟩ := List.cons.inj isPair
          obtain ⟨rfl, _⟩ := List.cons.inj rest
          rw [atFirst _ rfl, atSecond _ rfl] at applied
          obtain ⟨sameTy, isLiteral⟩ := Option.ite_none_right_eq_some.1 folded
          rw [apply_equality isEquality sameTy applied, ← Option.some.inj isLiteral]
          rfl
        · cases folded
      · rename_i notEquality
        rw [not_or] at notEquality
        split at folded
        · rename_i leftInt rightInt isPair
          obtain ⟨rfl, rest⟩ := List.cons.inj isPair
          obtain ⟨rfl, _⟩ := List.cons.inj rest
          rw [atFirst _ rfl, atSecond _ rfl] at applied
          simp only [Machine.apply, Literal.toValue, if_neg notEquality.1,
            if_neg notEquality.2] at applied
          rw [← map_toValue_foldInts, folded, Option.map_some] at applied
          exact (Option.some.inj applied).symm
        · cases folded

/-! ## Comparing floating-point numbers -/

namespace Binary64

/-- Whether a number is zero, of either sign. -/
def isZero (value : Binary64) : Bool := value.exponentField = 0 ∧ value.fractionField = 0

/-- Whether two numbers have one value: a pattern that stands for no number has none, and the two
zeros have the same. -/
def sameValue (left right : Binary64) : Bool :=
  !left.isNaN && !right.isNaN && (left = right || left.isZero && right.isZero)

/-- Which of two numbers comes first does not matter. -/
theorem sameValue_comm (left right : Binary64) : left.sameValue right = right.sameValue left := by
  unfold sameValue
  rw [Bool.and_comm (!left.isNaN), Bool.and_comm left.isZero, decide_eq_decide.2 (@eq_comm _ left right)]

/-- Two patterns about which bits and values disagree: no number twice, or zeros of different
signs. -/
def Disputed (left right : Binary64) : Prop :=
  (left = right ∧ left.isNaN) ∨ (left ≠ right ∧ left.isZero ∧ right.isZero)

/-- Zero is a number. -/
theorem isNaN_of_isZero {value : Binary64} (isZero : value.isZero = true) : value.isNaN = false := by
  rw [Binary64.isZero, decide_eq_true_eq] at isZero
  rw [isNaN, isZero.2]
  exact Bool.and_false _

/-- Bits and values agree about the others. -/
theorem sameValue_eq_iff {left right : Binary64} :
    left.sameValue right = decide (left = right) ↔ ¬Disputed left right := by
  unfold sameValue Disputed
  by_cases same : left = right
  · subst same
    cases left.isNaN <;> simp
  · rw [decide_eq_false same, Bool.false_or]
    cases leftZero : left.isZero with
    | false => simp [same]
    | true =>
      cases rightZero : right.isZero with
      | false => simp [same]
      | true => simp [same, isNaN_of_isZero leftZero, isNaN_of_isZero rightZero]

end Binary64

/-- The machine that compares floating-point numbers by their values. -/
def Machine.comparing (floats : FloatOps) : Machine where
  floats := { floats with eq := Binary64.sameValue, eq_comm := Binary64.sameValue_comm }

/-- Operands that an operation tells equal or not by comparing floating-point numbers. -/
def ComparesFloats (op : Opcode) (values : List Value) (left right : Binary64) : Prop :=
  (op = .eq ∨ op = .ne) ∧ values = [.float left, .float right]

/-- Other operations do not depend on whether floating-point numbers may be compared. -/
theorem Machine.apply_refusing {floats : FloatOps} {op : Opcode} {values : List Value}
    (others : ∀ left right, ¬ComparesFloats op values left right) :
    (Machine.mk floats false).apply op values = (Machine.mk floats true).apply op values := by
  unfold Machine.apply
  split
  · rfl
  · rename_i left right
    by_cases isEquality : op = .eq ∨ op = .ne
    · have compared : (Machine.mk floats false).compare? left right =
          (Machine.mk floats true).compare? left right := by
        cases left <;> cases right <;> first
          | rfl
          | exact absurd ⟨isEquality, rfl⟩ (others _ _)
      rw [compared]
    · rw [not_or] at isEquality
      rw [if_neg isEquality.1, if_neg isEquality.2, if_neg isEquality.1, if_neg isEquality.2]
  · rfl

/-- What a machine that compares values makes of a comparison. -/
theorem Machine.apply_comparing {floats : FloatOps} {op : Opcode} {values : List Value}
    {left right : Binary64} (compares : ComparesFloats op values left right) :
    (Machine.comparing floats).apply op values =
      some (.bool (left.sameValue right == decide (op = .eq))) := by
  obtain ⟨rfl | rfl, rfl⟩ := compares
  · simp [Machine.apply, Machine.compare?, Machine.comparing]
  · simp [Machine.apply, Machine.compare?, Machine.comparing]

/-- What folding makes of a comparison. -/
theorem fold_of_comparesFloats {op : Opcode} {args : List (Option Literal)} {same : Bool}
    {values : List Value} {left right : Binary64} {literal : Literal}
    (compares : ComparesFloats op values left right) (known : List.Forall₂ Knows args values)
    (areSame : same = true → ∃ operand, values = [operand, operand])
    (folded : fold op args same = some literal) :
    literal = .bool (decide (left = right) == decide (op = .eq)) := by
  obtain ⟨isEquality, rfl⟩ := compares
  obtain ⟨first, second, rfl, atFirst, atSecond⟩ := exists_pair_of_knows known
  cases same with
  | true =>
    obtain ⟨operand, isPair⟩ := areSame rfl
    obtain rfl : left = right := by grind
    rcases isEquality with rfl | rfl
    · simpa [fold, reflexive?, eq_comm] using folded
    · simpa [fold, reflexive?, eq_comm] using folded
  | false =>
    have isKnown : ∀ {arg : Option Literal} {value : Binary64}, Knows arg (.float value) →
        arg = none ∨ arg = some (.float value) := by
      intro arg value knows
      cases arg with
      | none => exact .inl rfl
      | some literal =>
        have same := knows literal rfl
        cases literal <;> simp_all [Literal.toValue]
    rcases isKnown atFirst with rfl | rfl <;> rcases isKnown atSecond with rfl | rfl <;>
      rcases isEquality with rfl | rfl <;> simp_all [fold, Literal.ty, eq_comm]

/-- Folding gives the constant that a run computes, unless `eq` or `ne` compares floating-point
numbers about which bits and values disagree; there it gives the other one. -/
theorem fold_agrees_iff {floats : FloatOps} {op : Opcode} {args : List (Option Literal)}
    {same : Bool} {values : List Value} {value : Value} {literal : Literal}
    (known : List.Forall₂ Knows args values)
    (areSame : same = true → ∃ operand, values = [operand, operand])
    (applied : (Machine.comparing floats).apply op values = some value)
    (folded : fold op args same = some literal) :
    value = literal.toValue ↔
      ¬∃ left right, ComparesFloats op values left right ∧ Binary64.Disputed left right := by
  -- Only comparisons of floating-point numbers differ from what `fold_sound` covers.
  by_cases compares : ∃ left right, ComparesFloats op values left right
  · obtain ⟨left, right, compares⟩ := compares
    rw [Machine.apply_comparing compares, Option.some.injEq] at applied
    rw [fold_of_comparesFloats compares known areSame folded, ← applied, Literal.toValue,
      Value.bool.injEq]
    have unique : (∃ first second, ComparesFloats op values first second ∧
        Binary64.Disputed first second) ↔ Binary64.Disputed left right := by
      constructor
      · rintro ⟨first, second, ⟨_, isPair⟩, disputed⟩
        obtain ⟨rfl, rfl⟩ : left = first ∧ right = second := by
          simpa [compares.2] using isPair
        exact disputed
      · exact fun disputed => ⟨left, right, compares, disputed⟩
    rw [unique, ← Binary64.sameValue_eq_iff]
    cases decide (op = .eq) <;> simp
  · push Not at compares
    refine iff_of_true ?_ fun ⟨left, right, both, _⟩ => compares left right both
    exact fold_sound known areSame ((Machine.apply_refusing compares).trans applied) folded

/-- A conjunction whose second operand is known to be false. -/
theorem fold_agrees_iff_and : ∃ value literal,
    List.Forall₂ Knows [none, some (.bool false)] [.bool true, .bool false] ∧
    (Machine.comparing Machine.withoutFloats.floats).apply .and [.bool true, .bool false] =
      some value ∧
    fold .and [none, some (.bool false)] false = some literal ∧ value = literal.toValue := by
  have known : List.Forall₂ Knows [none, some (.bool false)] [.bool true, .bool false] :=
    .cons nofun (.cons (fun _ same => by cases same; rfl) .nil)
  have folded : fold .and [none, some (.bool false)] false = some (.bool false) := rfl
  have applied : (Machine.comparing Machine.withoutFloats.floats).apply .and
      [.bool true, .bool false] = some (.bool false) := rfl
  refine ⟨.bool false, .bool false, known, applied, folded, ?_⟩
  exact (@fold_agrees_iff _ _ _ false _ _ _ known nofun applied folded).2
    fun ⟨_, _, ⟨isEquality, _⟩, _⟩ => by rcases isEquality with isEq | isNe <;> contradiction

/-- The two zeros have one value, and folding tells them apart. -/
theorem not_fold_agrees : ∃ op args same values value literal,
    List.Forall₂ Knows args values ∧ (same = true → ∃ operand, values = [operand, operand]) ∧
    (Machine.comparing Machine.withoutFloats.floats).apply op values = some value ∧
    fold op args same = some literal ∧ value ≠ literal.toValue :=
  ⟨.eq, [some (.float (.zero false)), some (.float (.zero true))], false,
    [.float (.zero false), .float (.zero true)], .bool true, .bool false,
    .cons (fun _ same => by cases same; rfl) (.cons (fun _ same => by cases same; rfl) .nil), nofun,
    by decide +kernel, by decide +kernel, by decide⟩

end Midend
