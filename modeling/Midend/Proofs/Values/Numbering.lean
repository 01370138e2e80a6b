import Midend.Proofs.FlowGraph.Recast
import Midend.Proofs.Fold
import Midend.Proofs.Values.Table
import Midend.Values.Numbering

/-! # Correctness of the numbering of instructions

Numbering an instruction replaces its arguments by variables with the same numbers and its action by
one that has the same effect (`Numbering.numberInstr_sound`), and reads only what has a number or was
read before (`Numbering.recast_numberInstr`). -/

namespace Midend

namespace ValueTable

/-- A variable has a number. -/
def Bound (table : ValueTable) (var : String) : Prop := ∃ number, table.numberOf? var = some number

/-- Every value is held by a variable that has a number. -/
def Held (table : ValueTable) : Prop := ∀ row ∈ table.rows, table.Bound row.var

/-- A table in which more variables have numbers. -/
structure Extends (table after : ValueTable) (names : List String) : Prop where
  /-- Numbers stay. -/
  size_le : table.size ≤ after.size
  /-- Variables keep their numbers. -/
  kept : ∀ var number, table.numberOf? var = some number → after.numberOf? var = some number
  /-- Only the given variables got numbers. -/
  origin : ∀ var, after.Bound var → table.Bound var ∨ var ∈ names
  /-- Values stay held. -/
  held : table.Held → after.Held

namespace Extends

variable {table middle after : ValueTable} {names others : List String}

/-- A variable that got no number had the one it has. -/
theorem before (extended : Extends table after names) {var : String} {number : Nat}
    (found : after.numberOf? var = some number) (absent : var ∉ names) :
    table.numberOf? var = some number := by
  rcases extended.origin var ⟨number, found⟩ with ⟨other, isOther⟩ | isName
  · rw [isOther, ← extended.kept var other isOther, found]
  · exact absurd isName absent

/-- Nothing was added. -/
theorem refl (table : ValueTable) : Extends table table [] :=
  ⟨Nat.le_refl _, fun _ _ => id, fun _ => .inl, id⟩

/-- Numbers were added in two steps. -/
theorem trans (first : Extends table middle names) (second : Extends middle after others) :
    Extends table after (names ++ others) := by
  refine ⟨Nat.le_trans first.size_le second.size_le,
    fun var number found => second.kept var number (first.kept var number found),
    fun var bound => ?_, fun held => second.held (first.held held)⟩
  rw [List.mem_append]
  rcases second.origin var bound with early | isNew
  · rcases first.origin var early with before | isNew
    · exact .inl before
    · exact .inr (.inl isNew)
  · exact .inr (.inr isNew)

/-- A variable that has a number keeps having one. -/
theorem bound (extended : Extends table after names) {var : String} (bound : table.Bound var) :
    after.Bound var := by
  obtain ⟨number, found⟩ := bound
  exact ⟨number, extended.kept var number found⟩

end Extends

/-- A variable without a number gets one, and new values are held by that variable. -/
theorem Extends.of_bind {table other : ValueTable} {dest : String} (number : Nat)
    (same : ∀ var, other.numberOf? var = table.numberOf? var)
    (rows : ∃ rows, other.rows = table.rows ++ rows ∧ ∀ row ∈ rows, row.var = dest)
    (fresh : ¬table.Bound dest) : Extends table (other.bind dest number) [dest] := by
  obtain ⟨rows, isRows, inRows⟩ := rows
  refine ⟨?_, fun var number found => ?_, fun var bound => ?_, fun held row member => ?_⟩
  · simp [size, isRows]
  · rw [numberOf?_bind, if_neg, same, found]
    rintro rfl
    exact fresh ⟨number, found⟩
  · obtain ⟨number, found⟩ := bound
    rw [numberOf?_bind] at found
    split at found
    · rename_i isDest
      exact .inr (List.mem_singleton.2 isDest)
    · exact .inl ⟨number, by rw [← same, found]⟩
  · rw [rows_bind, isRows] at member
    unfold Bound
    simp only [numberOf?_bind, same]
    split
    · exact ⟨_, rfl⟩
    · rename_i apart
      rcases List.mem_append.1 member with old | isNew
      · exact held row old
      · exact absurd (inRows row isNew) apart

/-- A variable without a number gets the next one. -/
theorem numberOrInput_cases (table : ValueTable) (var : String) :
    (∃ number, table.numberOf? var = some number ∧ table.numberOrInput var = (number, table)) ∨
      (table.numberOf? var = none ∧
        table.numberOrInput var = (table.size, (table.pushOpaque var).2.bind var table.size)) := by
  unfold numberOrInput
  cases found : table.numberOf? var with
  | some number => exact .inl ⟨number, rfl, rfl⟩
  | none => exact .inr ⟨rfl, rfl⟩

/-- Giving a variable a number adds at most that one. -/
theorem numberOrInput_spec (table : ValueTable) (var : String) :
    Extends table (table.numberOrInput var).2 [var] ∧
      (table.numberOrInput var).2.numberOf? var = some (table.numberOrInput var).1 := by
  rcases table.numberOrInput_cases var with ⟨number, found, same⟩ | ⟨missing, isNew⟩
  · rw [same]
    exact ⟨⟨Nat.le_refl _, fun _ _ => id, fun _ => .inl, id⟩, found⟩
  · rw [isNew]
    refine ⟨.of_bind _ (fun _ => rfl) ⟨[⟨none, var, none⟩], rfl, by simp⟩ ?_, by simp⟩
    rintro ⟨number, found⟩
    rw [missing] at found
    cases found

/-! ## Defined variables -/

/-- A variable has a number once it is defined. -/
theorem bound_of_defined {vars : List String} {table : ValueTable} {var : String}
    (isBound : (vars.foldl define table).Bound var) : table.Bound var ∨ var ∈ vars := by
  induction vars generalizing table with
  | nil => exact .inl isBound
  | cons first rest restIH =>
    rcases restIH isBound with ⟨number, found⟩ | inRest
    · rw [define, numberOf?_bind] at found
      split at found
      · rename_i same
        exact .inr (List.mem_cons.2 (.inl same))
      · exact .inl ⟨number, found⟩
    · exact .inr (List.mem_cons_of_mem _ inRest)

/-- Values stay held when variables are defined. -/
theorem held_of_defined {vars : List String} {table : ValueTable} (held : table.Held) :
    (vars.foldl define table).Held := by
  induction vars generalizing table with
  | nil => exact held
  | cons first rest restIH =>
    refine restIH fun row member => ?_
    unfold Bound
    simp only [define, numberOf?_bind, numberOf?_pushOpaque]
    split
    · exact ⟨_, rfl⟩
    · rename_i apart
      rcases List.mem_append.1 member with old | isNew
      · exact held row old
      · exact absurd (by rw [List.mem_singleton.1 isNew]) apart

/-- Defining variables gives no expression a number. -/
theorem exprs_of_defined (vars : List String) (table : ValueTable) :
    (vars.foldl define table).exprs = table.exprs := by
  induction vars generalizing table with
  | nil => rfl
  | cons first rest restIH => exact restIH (table.define first)

/-- Defined variables have values of their own. -/
theorem Sound.foldl_define {machine : Machine} {table : ValueTable} {val : Nat → Option Value}
    {env : Env} (sound : table.Sound machine val env) (vars : List String) :
    ∃ other, (vars.foldl ValueTable.define table).Sound machine other env := by
  induction vars generalizing table val with
  | nil => exact ⟨val, sound⟩
  | cons var rest restIH => exact restIH (sound.define var)

/-- Giving a variable a number keeps the table sound. -/
theorem Sound.numberOrInput {machine : Machine} {table : ValueTable} {val : Nat → Option Value}
    {env : Env} (sound : table.Sound machine val env) (var : String) :
    ∃ other, SameBelow table.size val other ∧
      (table.numberOrInput var).2.Sound machine other env := by
  rcases table.numberOrInput_cases var with ⟨number, found, same⟩ | ⟨missing, isNew⟩
  · rw [same]
    exact ⟨val, .refl _ _, sound⟩
  · rw [isNew]
    exact ⟨_, sameBelow_update table.size val (env var), sound.define var⟩

end ValueTable

namespace Numbering

open ValueTable (SameBelow sameBelow_update Extends Bound)

/-! ## Arguments -/

/-- Canonical arguments have the numbers of the arguments that they replace. -/
theorem canonicalizeArgs_spec (place : Place) (args : List String) (table : ValueTable) :
    Extends table (canonicalizeArgs place args table).2.1 args ∧
      List.Forall₂ (fun arg canonical => ∃ number,
        (canonicalizeArgs place args table).2.1.numberOf? arg = some number ∧
        (canonicalizeArgs place args table).2.1.numberOf? canonical = some number) args
        (canonicalizeArgs place args table).1 := by
  induction args generalizing table with
  | nil => exact ⟨.refl _, .nil⟩
  | cons arg rest restIH =>
    obtain ⟨extended, isNumber⟩ := table.numberOrInput_spec arg
    obtain ⟨extendedRest, same⟩ := restIH (table.numberOrInput arg).2
    have sameNumber : (table.numberOrInput arg).2.numberOf?
        (((table.numberOrInput arg).2.canonical? (table.numberOrInput arg).1).getD arg) =
          some (table.numberOrInput arg).1 := by
      cases found : (table.numberOrInput arg).2.canonical? (table.numberOrInput arg).1 with
      | none => exact isNumber
      | some canonical => exact (ValueTable.numberOf?_of_canonical? found).1
    exact ⟨extended.trans extendedRest, .cons ⟨(table.numberOrInput arg).1,
      extendedRest.kept _ _ isNumber, extendedRest.kept _ _ sameNumber⟩ same⟩

/-- Canonical arguments keep the table sound. -/
theorem sound_canonicalizeArgs {machine : Machine} (place : Place) (args : List String)
    {table : ValueTable} {val : Nat → Option Value} {env : Env}
    (sound : table.Sound machine val env) : ∃ other, SameBelow table.size val other ∧
      (canonicalizeArgs place args table).2.1.Sound machine other env := by
  induction args generalizing table val with
  | nil => exact ⟨val, .refl _ _, sound⟩
  | cons arg rest restIH =>
    obtain ⟨middle, same, soundArg⟩ := sound.numberOrInput arg
    obtain ⟨other, sameRest, soundRest⟩ := restIH soundArg
    exact ⟨other, same.trans sameRest (table.numberOrInput_spec arg).1.size_le, soundRest⟩

/-- Variables that have numbers are looked up without a change of the table. -/
theorem numbersOf_of_bound {args : List String} {table : ValueTable}
    (bound : ∀ arg ∈ args, table.Bound arg) : ∃ numbers, numbersOf args table = (numbers, table) ∧
      List.Forall₂ (fun arg number => table.numberOf? arg = some number) args numbers := by
  induction args with
  | nil => exact ⟨[], rfl, .nil⟩
  | cons arg rest restIH =>
    obtain ⟨number, found⟩ := bound arg (List.mem_cons_self ..)
    obtain ⟨numbers, isNumbers, areNumbers⟩ :=
      restIH fun other member => bound other (List.mem_cons_of_mem _ member)
    refine ⟨number :: numbers, ?_, .cons found areNumbers⟩
    simp [numbersOf, ValueTable.numberOrInput, found, isNumbers]

/-- The values of variables are those of their numbers. -/
theorem mapM_val_of_read {machine : Machine} {table : ValueTable} {val : Nat → Option Value}
    {env : Env} (sound : table.Sound machine val env) {args : List String} {numbers : List Nat}
    {values : List Value} (read : env.read args = some values)
    (areNumbers : List.Forall₂ (fun arg number => table.numberOf? arg = some number) args numbers) :
    numbers.mapM val = some values := by
  unfold Env.read at read
  induction areNumbers generalizing values with
  | nil => exact read
  | cons isNumber _ restIH =>
    rw [List.mapM_cons] at read ⊢
    obtain ⟨value, atArg, read⟩ := Option.bind_eq_some_iff.1 read
    obtain ⟨others, atRest, read⟩ := Option.bind_eq_some_iff.1 read
    obtain rfl := Option.some.inj read
    rw [← (sound.var _ _ isNumber).2, atArg, restIH atRest]
    rfl

/-! ## Expressions -/

/-- What two values come from. -/
theorem exists_pair_of_mapM {val : Nat → Option Value} {numbers : List Nat} {left right : Value}
    (found : numbers.mapM val = some [left, right]) :
    ∃ first second, numbers = [first, second] ∧ val first = some left ∧ val second = some right := by
  rcases numbers with _ | ⟨first, _ | ⟨second, _ | ⟨third, rest⟩⟩⟩ <;>
    simp_all [Option.bind_eq_some_iff]

/-- An expression in which operands were put in order has the value of the operation. -/
theorem exists_values_ofOp {machine : Machine} {op : Opcode} {numbers : List Nat}
    {val : Nat → Option Value} {values : List Value} {value : Value}
    (found : numbers.mapM val = some values) (applied : machine.apply op values = some value) :
    ∃ ordered others, Expr.ofOp op numbers = .op op ordered ∧ ordered.mapM val = some others ∧
      machine.apply op others = some value ∧ ∀ number, number ∈ ordered ↔ number ∈ numbers := by
  unfold Expr.ofOp
  split
  · rename_i commutative
    -- A commutative operation has two operands.
    obtain ⟨left, right, rfl⟩ : ∃ left right, values = [left, right] := by
      unfold Machine.apply at applied
      split at applied
      · split at applied
        · rename_i isNot
          rw [isNot] at commutative
          cases commutative
        · cases applied
      · exact ⟨_, _, rfl⟩
      · cases applied
    obtain ⟨first, second, rfl, atFirst, atSecond⟩ := exists_pair_of_mapM found
    by_cases inOrder : first ≤ second
    · have sorted : sortBy (fun left right => decide (left ≤ right)) [first, second] =
          [first, second] := by simp [sortBy, insertBy, inOrder]
      exact ⟨[first, second], [left, right], by rw [sorted], found, applied, fun _ => Iff.rfl⟩
    · have sorted : sortBy (fun left right => decide (left ≤ right)) [first, second] =
          [second, first] := by simp [sortBy, insertBy, inOrder]
      refine ⟨[second, first], [right, left], by rw [sorted], by simp [atFirst, atSecond], ?_, ?_⟩
      · rw [machine.apply_comm commutative]
        exact applied
      · intro number
        simp [or_comm]
  · exact ⟨numbers, values, rfl, found, applied, fun _ => Iff.rfl⟩

/-- An operation gives its expression the number of its value. -/
theorem means_ofOp {machine : Machine} {op : Opcode} {numbers : List Nat} {size number : Nat}
    {val : Nat → Option Value} {values : List Value} {value : Value}
    (below : ∀ number ∈ numbers, number < size) (found : numbers.mapM val = some values)
    (applied : machine.apply op values = some value) (atNumber : val number = some value) :
    ValueTable.Means machine size val (Expr.ofOp op numbers) number := by
  obtain ⟨ordered, others, isExpr, atOrdered, appliedOthers, mem_iff⟩ :=
    exists_values_ofOp found applied
  rw [isExpr]
  refine ⟨fun number member => below number ((mem_iff number).1 member), ?_⟩
  intro values' value' found' applied'
  rw [atOrdered] at found'
  obtain rfl := Option.some.inj found'
  rw [appliedOthers] at applied'
  rw [atNumber, applied']

/-- An operation without side effects only computes a value. -/
theorem perform_of_pure {machine : Machine} {calls : Calls} {op : Opcode} {dest : String} {ty : Ty}
    {operands : Operands} (isPure : op.isPure = true) (notUndef : op ≠ .undef) (notId : op ≠ .id) :
    ∀ values, (Action.compute op dest ty operands).perform machine calls values =
      (machine.apply op values).map fun value => { value := some value } := by
  cases op <;> try cases isPure
  case id => exact absurd rfl notId
  case undef => exact absurd rfl notUndef
  all_goals
    intro values
    rw [Option.map_eq_bind]
    rfl

/-! ## Written variables -/

/-- The four ways in which an instruction that writes a variable is numbered, with any table. -/
theorem numberWrite_cases (place : Place) (action : Action) (dest : String) (ty : Ty) :
    (∃ written ty' literal, action = .const written ty' literal ∧
      ∀ table, numberWrite place table action dest ty = numberConst table action dest literal) ∨
    (∃ written ty' operands source, action = .compute .id written ty' operands ∧
      operands.args = [source] ∧ ∀ table,
      numberWrite place table action dest ty = numberCopy place table action dest ty source) ∨
    (∃ op written ty' operands, action = .compute op written ty' operands ∧ op.isPure = true ∧
      op ≠ .undef ∧ (op = .id → operands.args.length ≠ 1) ∧ ∀ table,
      numberWrite place table action dest ty =
        numberPure place table action dest ty op operands.args) ∨
    ∀ table, numberWrite place table action dest ty =
      { action, number := (table.pushOpaque dest).1, table := (table.pushOpaque dest).2 } := by
  cases action with
  | const written ty' literal => exact .inl ⟨written, ty', literal, rfl, fun _ => rfl⟩
  | compute op written ty' operands =>
    by_cases isCopy : op = .id ∧ operands.args.length = 1
    · obtain ⟨rfl, length⟩ := isCopy
      obtain ⟨source, args⟩ := List.length_eq_one_iff.1 length
      exact .inr (.inl ⟨written, ty', operands, source, rfl, args, by simp [numberWrite, args]⟩)
    · rw [not_and] at isCopy
      have unfolded : ∀ table, numberWrite place table (.compute op written ty' operands) dest ty =
          if op.isPure ∧ op ≠ .undef then
            numberPure place table (.compute op written ty' operands) dest ty op operands.args
          else ⟨.compute op written ty' operands, (table.pushOpaque dest).1,
            (table.pushOpaque dest).2, []⟩ := by
        intro table
        simp only [numberWrite]
        split
        · rename_i args
          exact absurd (by rw [args]; rfl) (isCopy rfl)
        · rfl
      by_cases isPure : op.isPure ∧ op ≠ .undef
      · exact .inr (.inr (.inl ⟨op, written, ty', operands, rfl, isPure.1, isPure.2, isCopy,
          fun table => by rw [unfolded, if_pos isPure]⟩))
      · exact .inr (.inr (.inr fun table => by rw [unfolded, if_neg isPure]))
  | effect op operands => exact .inr (.inr (.inr fun _ => rfl))
  | label name => exact .inr (.inr (.inr fun _ => rfl))

/-- What numbering the value of an action comes to: an action with the same effect, and values for
the new numbers. -/
structure Answers (machine : Machine) (calls : Calls) (table : ValueTable)
    (val : Nat → Option Value) (env : Env) (effect : Effect) (numbered : Numbered)
    (other : Nat → Option Value) : Prop where
  /-- The old numbers keep their values. -/
  same : SameBelow table.size val other
  /-- The new table is sound. -/
  sound : numbered.table.Sound machine other env
  /-- The number is one of the table. -/
  below : numbered.number < numbered.table.size
  /-- The number stands for the value written. -/
  value : other numbered.number = effect.value
  /-- The new action has the same effect. -/
  performs : ∃ values, env.read numbered.action.reads = some values ∧
    numbered.action.perform machine calls values = some effect

section Writes

variable {machine : Machine} {calls : Calls} {table : ValueTable} {val : Nat → Option Value}
  {env : Env} {effect : Effect}

/-- A value of which nothing is known. -/
theorem answers_opaque (sound : table.Sound machine val env) {action : Action} {dest : String}
    {log : Log}
    (performs : ∃ values, env.read action.reads = some values ∧
      action.perform machine calls values = some effect) :
    ∃ other, Answers machine calls table val env effect
      ⟨action, (table.pushOpaque dest).1, (table.pushOpaque dest).2, log⟩ other := by
  have noConstant : ∀ literal, (none : Option Literal) = some literal →
      effect.value = some literal.toValue := by simp
  refine ⟨_, sameBelow_update table.size val effect.value,
    sound.addRow ⟨none, dest, none⟩ noConstant, ?_, Function.update_self .., performs⟩
  simp [ValueTable.pushOpaque, ValueTable.size]

/-- An action that becomes a known constant. -/
theorem performs_const (machine : Machine) (calls : Calls) (env : Env) (dest : String) (ty : Ty)
    (literal : Literal) :
    ∃ values, env.read (Action.const dest ty literal).reads = some values ∧
      (Action.const dest ty literal).perform machine calls values =
        some { value := some literal.toValue } := ⟨[], rfl, rfl⟩

/-- A constant is a held one or a new value. -/
theorem answers_const (sound : table.Sound machine val env) (dest : String) (ty : Ty)
    (literal : Literal) : ∃ other, Answers machine calls table val env
      { value := some literal.toValue } (numberConst table (.const dest ty literal) dest literal)
      other := by
  unfold numberConst
  split
  · rename_i number found
    obtain ⟨below, means⟩ := sound.expr _ _ (ValueTable.get?_of_lookup? found).1
    exact ⟨val, .refl _ _, sound, below, means, performs_const _ _ _ dest ty literal⟩
  · refine ⟨_, sameBelow_update table.size val (some literal.toValue),
      sound.push dest (by simp) (by simp [ValueTable.Means]), ?_, ?_,
      performs_const _ _ _ dest ty literal⟩
    · simp [ValueTable.size]
    · simp

/-- A copy has the number of its source. -/
theorem answers_copy (sound : table.Sound machine val env) (place : Place) (dest : String) (ty : Ty)
    {operands : Operands} {source : String} (args : operands.args = [source])
    (bound : table.Bound source) {value : Value} (held : env source = some value) :
    ∃ other, Answers machine calls table val env { value := some value }
      (numberCopy place table (.compute .id dest ty operands) dest ty source) other := by
  obtain ⟨number, found⟩ := bound
  obtain ⟨below, sameValue⟩ := sound.var source number found
  unfold numberCopy
  rw [show table.numberOrInput source = (number, table) by simp [ValueTable.numberOrInput, found]]
  dsimp only
  split
  · rename_i literal isConstant
    have isLiteral : value = literal.toValue := by
      have atNumber := sound.constant number literal isConstant
      rw [← sameValue, held] at atNumber
      exact Option.some.inj atNumber
    exact ⟨val, .refl _ _, sound, below, sameValue.symm.trans held,
      isLiteral ▸ performs_const _ _ _ dest ty literal⟩
  · refine ⟨val, .refl _ _, sound, below, sameValue.symm.trans held, [value], ?_, rfl⟩
    simp [Action.reads, args, Env.read, held]

/-- The operands that are known constants are known rightly. -/
theorem knows_constants (sound : table.Sound machine val env) {numbers : List Nat}
    {values : List Value} (found : numbers.mapM val = some values) :
    List.Forall₂ Knows (numbers.map table.constant?) values := by
  induction numbers generalizing values with
  | nil =>
    obtain rfl := Option.some.inj found
    exact .nil
  | cons number rest restIH =>
    rw [List.mapM_cons] at found
    obtain ⟨value, atNumber, found⟩ := Option.bind_eq_some_iff.1 found
    obtain ⟨others, atRest, found⟩ := Option.bind_eq_some_iff.1 found
    obtain rfl := Option.some.inj found
    refine .cons (fun literal isConstant => ?_) (restIH atRest)
    have known := sound.constant number literal isConstant
    rw [atNumber] at known
    exact Option.some.inj known

/-- The numbers of variables are numbers of the table. -/
theorem lt_size_of_numbers (sound : table.Sound machine val env) {args : List String}
    {numbers : List Nat}
    (areNumbers : List.Forall₂ (fun arg number => table.numberOf? arg = some number) args numbers) :
    ∀ number ∈ numbers, number < table.size := by
  induction areNumbers with
  | nil => simp
  | cons isNumber _ restIH =>
    rintro number (_ | ⟨_, inRest⟩)
    · exact (sound.var _ _ isNumber).1
    · exact restIH number inRest

end Writes

section Computes

variable {floats : FloatOps} {calls : Calls} {table : ValueTable} {val : Nat → Option Value}
  {env : Env} {action : Action} {numbers : List Nat} {values : List Value} {value : Value}
  {op : Opcode}

/-- A new number for the value of an operation, with the expression that it stands for. -/
theorem answers_push (sound : table.Sound ⟨floats, false⟩ val env) (dest : String) {log : Log}
    {constant : Option Literal}
    (isConstant : ∀ literal, constant = some literal → value = literal.toValue)
    (below : ∀ number ∈ numbers, number < table.size) (found : numbers.mapM val = some values)
    (applied : (Machine.mk floats false).apply op values = some value)
    (performs : ∃ values, env.read action.reads = some values ∧
      action.perform ⟨floats, false⟩ calls values = some { value := some value }) :
    ∃ other, Answers ⟨floats, false⟩ calls table val env { value := some value }
      ⟨action, (table.push (Expr.ofOp op numbers) dest constant).1,
        (table.push (Expr.ofOp op numbers) dest constant).2, log⟩ other := by
  have same := sameBelow_update table.size val (some value)
  have means : ValueTable.Means ⟨floats, false⟩ (table.size + 1)
      (Function.update val table.size (some value)) (Expr.ofOp op numbers) table.size := by
    refine means_ofOp (fun number member => by have := below number member; omega) ?_ applied
      (Function.update_self ..)
    rw [mapM_congr_left fun number member => same number (below number member), found]
  refine ⟨_, same, sound.push dest (fun literal isLiteral => ?_) means, ?_, ?_, performs⟩
  · rw [isConstant literal isLiteral]
  · simp [ValueTable.size]
  · simp

/-- An expression that no held value has. -/
theorem answers_new (sound : table.Sound ⟨floats, false⟩ val env) (place : Place) (dest : String)
    (ty : Ty) (below : ∀ number ∈ numbers, number < table.size)
    (found : numbers.mapM val = some values)
    (applied : (Machine.mk floats false).apply op values = some value)
    (performs : ∃ values, env.read action.reads = some values ∧
      action.perform ⟨floats, false⟩ calls values = some { value := some value }) :
    ∃ other, Answers ⟨floats, false⟩ calls table val env { value := some value }
      (numberNew place table action dest ty op numbers (Expr.ofOp op numbers)) other := by
  unfold numberNew
  dsimp only
  split
  · rename_i literal folded
    have isLiteral : value = literal.toValue := by
      refine fold_sound (knows_constants sound found) (fun areSame => ?_) applied folded
      split at areSame
      · rename_i left right
        obtain rfl := of_decide_eq_true areSame
        rw [List.mapM_cons] at found
        obtain ⟨operand, atOperand, found⟩ := Option.bind_eq_some_iff.1 found
        simp only [List.mapM_cons, List.mapM_nil, atOperand] at found
        obtain rfl := Option.some.inj found
        exact ⟨operand, rfl⟩
      · cases areSame
    have performsConst := performs_const ⟨floats, false⟩ calls env dest ty literal
    rw [← isLiteral] at performsConst
    split
    · rename_i number isFound
      obtain ⟨atSize, means⟩ := sound.expr _ _ (ValueTable.get?_of_lookup? isFound).1
      have meansOp := means_ofOp below found applied (means.trans (congrArg some isLiteral.symm))
      refine ⟨val, .refl _ _, sound.index atSize meansOp, atSize, ?_, performsConst⟩
      rw [means, isLiteral]
    · exact answers_push sound dest (by rintro _ ⟨⟩; exact isLiteral) below found applied
        performsConst
  · exact answers_push sound dest (by simp) below found applied performs

/-- An operation without side effects. -/
theorem answers_pure (sound : table.Sound ⟨floats, false⟩ val env) (place : Place) (dest : String)
    (ty : Ty) {args : List String} (bound : ∀ arg ∈ args, table.Bound arg)
    (read : env.read args = some values)
    (applied : (Machine.mk floats false).apply op values = some value)
    (performs : ∃ values, env.read action.reads = some values ∧
      action.perform ⟨floats, false⟩ calls values = some { value := some value }) :
    ∃ other, Answers ⟨floats, false⟩ calls table val env { value := some value }
      (numberPure place table action dest ty op args) other := by
  obtain ⟨numbers, isNumbers, areNumbers⟩ := numbersOf_of_bound bound
  have found := mapM_val_of_read sound read areNumbers
  have below := lt_size_of_numbers sound areNumbers
  unfold numberPure
  rw [isNumbers]
  dsimp only
  split
  · exact answers_new sound place dest ty below found applied performs
  · rename_i number isFound
    obtain ⟨atSize, means⟩ := sound.expr _ _ (ValueTable.get?_of_lookup? isFound).1
    have atNumber : val number = some value := by
      obtain ⟨ordered, others, isExpr, atOrdered, appliedOthers, _⟩ :=
        exists_values_ofOp found applied
      rw [isExpr] at means
      exact means.2 others value atOrdered appliedOthers
    split
    · rename_i literal isConstant
      have isLiteral : value = literal.toValue :=
        Option.some.inj (atNumber.symm.trans (sound.constant number literal isConstant))
      exact ⟨val, .refl _ _, sound, atSize, atNumber,
        isLiteral ▸ performs_const _ _ _ dest ty literal⟩
    · rename_i canonical _ isCanonical
      have atCanonical := (sound.var canonical number
        (ValueTable.numberOf?_of_canonical? isCanonical).1).2
      refine ⟨val, .refl _ _, sound, atSize, atNumber, [value], ?_, rfl⟩
      simp [Action.reads, Env.read, atCanonical, atNumber]
    · exact ⟨val, .refl _ _, sound, atSize, atNumber, performs⟩

/-- Numbering an instruction that writes a variable keeps its effect. -/
theorem numberWrite_sound (sound : table.Sound ⟨floats, false⟩ val env) (place : Place)
    {instr : Instr} (checked : instr.Checked) {dest : String} {ty : Ty} {effect : Effect}
    (isDest : instr.action.dest? = some dest) (isTy : instr.action.ty? = some ty)
    (bound : ∀ arg ∈ instr.args, table.Bound arg) (read : env.read instr.args = some values)
    (performed : instr.action.perform ⟨floats, false⟩ calls values = some effect) :
    ∃ other, Answers ⟨floats, false⟩ calls table val env effect
      (numberWrite place table instr.action dest ty) other := by
  have performs : ∃ values, env.read instr.action.reads = some values ∧
      instr.action.perform ⟨floats, false⟩ calls values = some effect := by
    refine ⟨values, ?_, performed⟩
    change env.read instr.reads = some values
    rw [Instr.reads_eq_args checked, read]
  -- One case for each kind of writing: a constant, a copy, an operation without side effects, any
  -- other.
  rcases numberWrite_cases place instr.action dest ty with
    ⟨written, ty', literal, isAction, isNumbered⟩ |
    ⟨written, ty', operands, source, isAction, args, isNumbered⟩ |
    ⟨op, written, ty', operands, isAction, isPure, notUndef, notCopy, isNumbered⟩ | isNumbered
  · rw [isNumbered, isAction]
    rw [isAction] at isDest performed
    obtain rfl := Option.some.inj isDest
    obtain rfl := Option.some.inj performed
    exact answers_const sound _ ty' literal
  · have args_eq : instr.args = [source] := by rw [Instr.args, isAction, ← args]; rfl
    rw [args_eq] at bound read
    rw [isNumbered, isAction]
    rw [isAction] at isDest isTy performed
    obtain rfl := Option.some.inj isDest
    obtain rfl := Option.some.inj isTy
    obtain ⟨value, held⟩ := Env.exists_of_read read (List.mem_singleton_self source)
    have isValues : values = [value] := by simpa [Env.read, held, eq_comm] using read
    rw [isValues] at performed
    obtain rfl := Option.some.inj performed
    exact answers_copy sound place _ _ args (bound source (List.mem_singleton_self source)) held
  · have args_eq : instr.args = operands.args := by rw [Instr.args, isAction]; rfl
    rw [args_eq] at bound read
    rw [isNumbered, isAction]
    rw [isAction] at performed performs
    have notId : op ≠ .id := by
      rintro rfl
      obtain ⟨_, _, fit⟩ := (Instr.checked_compute_iff isAction).1 checked
      exact notCopy rfl (fit.args_length 1 rfl)
    rw [perform_of_pure isPure notUndef notId] at performed
    obtain ⟨value, applied, rfl⟩ := Option.map_eq_some_iff.1 performed
    exact answers_pure sound place dest ty bound read applied performs
  · rw [isNumbered]
    exact answers_opaque sound performs

end Computes

/-! ## Shape -/

/-- What numbering an action does to the table, whatever a run does. -/
structure Grows (table : ValueTable) (action : Action) (dest : String) (ty : Ty)
    (numbered : Numbered) : Prop where
  /-- The variables keep their numbers. -/
  numberOf? : ∀ var, numbered.table.numberOf? var = table.numberOf? var
  /-- New values are held by the variable that is written. -/
  rows : ∃ rows, numbered.table.rows = table.rows ++ rows ∧ ∀ row ∈ rows, row.var = dest
  /-- Merges keep their numbers. -/
  phis : ∀ block incoming, numbered.table.exprs.get? (.phi block incoming) =
    table.exprs.get? (.phi block incoming)
  /-- The action stays, becomes a constant, or becomes a copy of a variable that has a number. -/
  action : numbered.action = action ∨ (∃ literal, numbered.action = .const dest ty literal) ∨
    ∃ source, table.Bound source ∧ numbered.action = .compute .id dest ty { args := [source] }

section Shape

variable {table : ValueTable} {dest : String} {ty : Ty} {action : Action}

/-- The table stays as it is. -/
theorem grows_same {number : Nat} {log : Log} {other : Action}
    (isOther : other = action ∨ (∃ literal, other = .const dest ty literal) ∨
      ∃ source, table.Bound source ∧ other = .compute .id dest ty { args := [source] }) :
    Grows table action dest ty ⟨other, number, table, log⟩ :=
  ⟨fun _ => rfl, ⟨[], (List.append_nil _).symm, by simp⟩, fun _ _ => rfl, isOther⟩

/-- A new row for the variable that is written. -/
theorem grows_push (expr : Expr) {constant : Option Literal} {number : Nat} {log : Log}
    {other : Action} (notPhi : ∀ block incoming, expr ≠ .phi block incoming)
    (isOther : other = action ∨ ∃ literal, other = .const dest ty literal) :
    Grows table action dest ty ⟨other, number, (table.push expr dest constant).2, log⟩ := by
  refine ⟨fun var => ValueTable.numberOf?_push .., ⟨[⟨some expr, dest, constant⟩], ?_, by simp⟩,
    fun block incoming => ?_, isOther.elim .inl fun isConst => .inr (.inl isConst)⟩
  · rw [ValueTable.rows_push]
  · unfold ValueTable.push
    cases constant with
    | none => simp [ValueTable.index, notPhi]
    | some literal =>
      dsimp only
      split <;> simp [ValueTable.index, notPhi]

/-- An operation is not a merge. -/
theorem ofOp_ne_phi (op : Opcode) (numbers : List Nat) (block : String)
    (incoming : List (String × Nat)) : Expr.ofOp op numbers ≠ .phi block incoming := by
  unfold Expr.ofOp
  rintro ⟨⟩

/-- Numbering an instruction that writes a variable adds values for that variable only. -/
theorem grows_numberWrite (dest : String) (ty : Ty) (place : Place) {instr : Instr}
    (bound : ∀ arg ∈ instr.args, table.Bound arg) :
    Grows table instr.action dest ty (numberWrite place table instr.action dest ty) := by
  -- One case for each kind of writing: a constant, a copy, an operation without side effects, any
  -- other.
  rcases numberWrite_cases place instr.action dest ty with
    ⟨written, ty', literal, isAction, isNumbered⟩ |
    ⟨written, ty', operands, source, isAction, args, isNumbered⟩ |
    ⟨op, written, ty', operands, isAction, isPure, notUndef, notCopy, isNumbered⟩ | isNumbered
  · rw [isNumbered]
    unfold numberConst
    split
    · exact grows_same (.inl rfl)
    · dsimp only
      exact grows_push (.const literal) (by simp) (.inl rfl)
  · have inArgs : source ∈ instr.args := by simp [Instr.args, isAction, Action.operands, args]
    obtain ⟨number, found⟩ := bound source inArgs
    rw [isNumbered]
    unfold numberCopy
    rw [show table.numberOrInput source = (number, table) by simp [ValueTable.numberOrInput, found]]
    dsimp only
    split
    · exact grows_same (.inr (.inl ⟨_, rfl⟩))
    · exact grows_same (.inl rfl)
  · have args_eq : instr.args = operands.args := by rw [Instr.args, isAction]; rfl
    obtain ⟨numbers, isNumbers, _⟩ := numbersOf_of_bound (args_eq ▸ bound)
    rw [isNumbered]
    unfold numberPure
    rw [isNumbers]
    dsimp only
    split
    · unfold numberNew
      dsimp only
      split
      · split
        · refine ⟨fun _ => rfl, ⟨[], (List.append_nil _).symm, by simp⟩, fun block incoming => ?_,
            .inr (.inl ⟨_, rfl⟩)⟩
          simp [ValueTable.index, ofOp_ne_phi]
        · exact grows_push _ (ofOp_ne_phi op numbers) (.inr ⟨_, rfl⟩)
      · exact grows_push _ (ofOp_ne_phi op numbers) (.inl rfl)
    · split
      · exact grows_same (.inr (.inl ⟨_, rfl⟩))
      · rename_i number _ canonical _ isCanonical
        exact grows_same (.inr (.inr ⟨canonical,
          ⟨_, (ValueTable.numberOf?_of_canonical? isCanonical).1⟩, rfl⟩))
      · exact grows_same (.inl rfl)
  · rw [isNumbered]
    exact ⟨fun _ => rfl, ⟨[⟨none, dest, none⟩], rfl, by simp⟩, fun _ _ => rfl, .inl rfl⟩

end Shape

end Numbering

/-! ## Instructions -/

namespace Numbering

open ValueTable (SameBelow Extends Bound)

/-- Labels and merges are left alone. -/
theorem numberInstr_of_skipped (place : Place) (table : ValueTable) {instr : Instr}
    (skipped : instr.isLabel = true ∨ instr.isPhi = true) :
    numberInstr place table instr = (instr, table, []) := by
  rw [numberInstr, if_pos skipped]

/-- An instruction with canonical arguments. -/
def canonicalized (place : Place) (table : ValueTable) (instr : Instr) : Instr :=
  { instr with
    action := instr.action.mapOperands fun operands =>
      { operands with args := (canonicalizeArgs place instr.args table).1 } }

/-- The two ways in which other instructions are numbered: those that write a variable, and those
that do not. -/
theorem numberInstr_cases (place : Place) (table : ValueTable) {instr : Instr}
    (notLabel : instr.isLabel = false) (notPhi : instr.isPhi = false) :
    (∃ dest ty, instr.dest? = some dest ∧ (canonicalized place table instr).dest? = some dest ∧
      (canonicalized place table instr).ty? = some ty ∧
      (numberInstr place table instr).1 =
        { instr with action := (numberWrite place (canonicalizeArgs place instr.args table).2.1
          (canonicalized place table instr).action dest ty).action } ∧
      (numberInstr place table instr).2.1 =
        (numberWrite place (canonicalizeArgs place instr.args table).2.1
          (canonicalized place table instr).action dest ty).table.bind dest
          (numberWrite place (canonicalizeArgs place instr.args table).2.1
            (canonicalized place table instr).action dest ty).number) ∨
    (instr.dest? = none ∧ (numberInstr place table instr).1 = canonicalized place table instr ∧
      (numberInstr place table instr).2.1 = (canonicalizeArgs place instr.args table).2.1) := by
  have skips : ¬(instr.isLabel = true ∨ instr.isPhi = true) := by simp [notLabel, notPhi]
  rw [numberInstr, if_neg skips]
  obtain ⟨action, pos, key⟩ := instr
  cases action with
  | const dest ty literal => exact .inl ⟨dest, ty, rfl, rfl, rfl, rfl, rfl⟩
  | compute op dest ty operands => exact .inl ⟨dest, ty, rfl, rfl, rfl, rfl, rfl⟩
  | effect op operands => exact .inr ⟨rfl, rfl, rfl⟩
  | label name => cases notLabel

/-- The arguments of an instruction that was made canonical. -/
theorem args_canonicalized (place : Place) (table : ValueTable) (instr : Instr) :
    (canonicalized place table instr).args = (canonicalizeArgs place instr.args table).1 := by
  unfold canonicalized Instr.args
  cases instr.action <;> rfl

/-- The variable written stays when arguments are made canonical. -/
theorem dest?_canonicalized (place : Place) (table : ValueTable) (instr : Instr) :
    (canonicalized place table instr).dest? = instr.dest? := by
  unfold canonicalized Instr.dest?
  cases instr.action <;> rfl

/-- Canonical arguments have numbers. -/
theorem bound_canonicalized (place : Place) (table : ValueTable) (instr : Instr) :
    ∀ arg ∈ (canonicalized place table instr).args,
      (canonicalizeArgs place instr.args table).2.1.Bound arg := by
  rw [args_canonicalized]
  intro arg member
  obtain ⟨_, same⟩ := canonicalizeArgs_spec place instr.args table
  obtain ⟨_, _, number, _, found⟩ := exists_of_forall₂_right same member
  exact ⟨number, found⟩

/-- There are as many canonical arguments as there were arguments. -/
theorem length_canonicalized (place : Place) (table : ValueTable) (instr : Instr) :
    (canonicalizeArgs place instr.args table).1.length = instr.args.length := by
  obtain ⟨_, same⟩ := canonicalizeArgs_spec place instr.args table
  exact same.length_eq.symm

/-- A numbered instruction stands in the place of the old one and reads only what has a number. -/
theorem recast_numberInstr (place : Place) (table : ValueTable) {instr : Instr}
    (checked : instr.Checked) (notLabel : instr.isLabel = false) (notPhi : instr.isPhi = false) :
    Instr.Recast (canonicalizeArgs place instr.args table).2.1.Bound instr
      (numberInstr place table instr).1 := by
  have bound := bound_canonicalized place table instr
  rcases numberInstr_cases place table notLabel notPhi with
    ⟨dest, ty, isDest, _, _, isInstr, _⟩ | ⟨_, isInstr, _⟩
  · rw [isInstr]
    rcases (grows_numberWrite dest ty place bound).action with same | ⟨literal, isConst⟩ |
      ⟨source, isBound, isCopy⟩
    · refine .ofArgs same (length_canonicalized ..) ?_
      rwa [args_canonicalized] at bound
    · exact .const checked notPhi isDest isConst
    · exact .copy checked notPhi isDest isCopy isBound
  · rw [isInstr]
    refine .ofArgs rfl (length_canonicalized ..) ?_
    rwa [args_canonicalized] at bound

/-- A variable that had no number is the only one, besides the arguments, that gets one. -/
theorem extends_numberInstr (place : Place) (table : ValueTable) {instr : Instr}
    (notLabel : instr.isLabel = false) (notPhi : instr.isPhi = false)
    (fresh : ∀ dest, instr.dest? = some dest →
      ¬(canonicalizeArgs place instr.args table).2.1.Bound dest) :
    Extends (canonicalizeArgs place instr.args table).2.1 (numberInstr place table instr).2.1
      instr.dest?.toList := by
  rcases numberInstr_cases place table notLabel notPhi with
    ⟨dest, ty, isDest, _, _, _, isTable⟩ | ⟨noDest, _, isTable⟩
  · have grows := grows_numberWrite dest ty place (bound_canonicalized place table instr)
    rw [isTable, isDest]
    exact .of_bind _ grows.numberOf? grows.rows (fresh dest isDest)
  · rw [isTable, noDest]
    exact .refl _

/-- Canonical arguments change no number of a merge. -/
theorem phis_canonicalizeArgs (place : Place) (args : List String) (table : ValueTable)
    (block : String) (incoming : List (String × Nat)) :
    (canonicalizeArgs place args table).2.1.exprs.get? (.phi block incoming) =
      table.exprs.get? (.phi block incoming) := by
  induction args generalizing table with
  | nil => rfl
  | cons arg rest restIH =>
    change (canonicalizeArgs place rest (table.numberOrInput arg).2).2.1.exprs.get? _ = _
    rw [restIH]
    rcases table.numberOrInput_cases arg with ⟨_, _, same⟩ | ⟨_, same⟩
    · rw [same]
    · rw [same]
      rfl

/-- Numbering an instruction changes no number of a merge. -/
theorem phis_numberInstr (place : Place) (table : ValueTable) (instr : Instr) (block : String)
    (incoming : List (String × Nat)) :
    (numberInstr place table instr).2.1.exprs.get? (.phi block incoming) =
      table.exprs.get? (.phi block incoming) := by
  by_cases skipped : instr.isLabel = true ∨ instr.isPhi = true
  · rw [numberInstr_of_skipped place table skipped]
  · simp only [not_or, Bool.not_eq_true] at skipped
    rcases numberInstr_cases place table skipped.1 skipped.2 with ⟨dest, ty, _, _, _, _, isTable⟩ |
      ⟨_, _, isTable⟩
    · rw [isTable]
      exact ((grows_numberWrite dest ty place (bound_canonicalized place table instr)).phis block
        incoming).trans (phis_canonicalizeArgs place instr.args table block incoming)
    · rw [isTable]
      exact phis_canonicalizeArgs place instr.args table block incoming

/-- Variables that hold the values of others are read alike. -/
theorem read_of_forall₂ {env : Env} {names others : List String}
    (same : List.Forall₂ (fun name other => env other = env name) names others) :
    env.read others = env.read names := by
  unfold Env.read
  induction same with
  | nil => rfl
  | cons head _ tailIH => rw [List.mapM_cons, List.mapM_cons, head, tailIH]

/-- Numbering an instruction keeps what it does, and the table stays sound. -/
theorem numberInstr_sound {floats : FloatOps} {calls : Calls} {table : ValueTable}
    {val : Nat → Option Value} {state next : State} {control : Control} (place : Place)
    (sound : table.Sound ⟨floats, false⟩ val state.env) {instr : Instr} (checked : instr.Checked)
    (notLabel : instr.isLabel = false) (notPhi : instr.isPhi = false)
    (ran : instr.exec ⟨floats, false⟩ calls state = some (next, control)) :
    ∃ other, SameBelow table.size val other ∧
      (numberInstr place table instr).2.1.Sound ⟨floats, false⟩ other next.env ∧
      (numberInstr place table instr).1.exec ⟨floats, false⟩ calls state = some (next, control) := by
  obtain ⟨values, effect, read, performed, isNext, isControl⟩ := Instr.exec_eq_some_iff.1 ran
  rw [Instr.reads_eq_args checked] at read
  obtain ⟨extended, sameNumbers⟩ := canonicalizeArgs_spec place instr.args table
  obtain ⟨middle, sameMiddle, soundMiddle⟩ := sound_canonicalizeArgs place instr.args sound
  -- Canonical arguments hold the values of the arguments that they replace.
  have readCanonical : state.env.read (canonicalized place table instr).args = some values := by
    rw [args_canonicalized, read_of_forall₂ (sameNumbers.imp ?_), read]
    rintro arg canonical ⟨number, atArg, atCanonical⟩
    rw [(soundMiddle.var _ _ atArg).2, (soundMiddle.var _ _ atCanonical).2]
  have checkedCanonical : (canonicalized place table instr).Checked :=
    Instr.checked_of_args checked _ (length_canonicalized place table instr) rfl
  have performedCanonical :
      (canonicalized place table instr).action.perform ⟨floats, false⟩ calls values = some effect := by
    rw [← performed]
    exact Action.perform_mapOperands _ _ _ (fun operands =>
      { operands with args := (canonicalizeArgs place instr.args table).1 })
      (fun _ => ⟨rfl, rfl⟩) values
  rcases numberInstr_cases place table notLabel notPhi with
    ⟨dest, ty, isDest, isDestCanonical, isTy, isInstr, isTable⟩ | ⟨noDest, isInstr, isTable⟩
  · obtain ⟨other, answers⟩ := numberWrite_sound soundMiddle place checkedCanonical isDestCanonical
      isTy (bound_canonicalized place table instr) readCanonical performedCanonical
    obtain ⟨value, isValue⟩ : ∃ value, effect.value = some value := by
      have hasValue := Action.isSome_value performed
      rw [show instr.action.dest? = some dest from isDest] at hasValue
      exact Option.isSome_iff_exists.1 hasValue
    have nextEnv : next.env = state.env.set dest value := by
      rw [← isNext, isDest]
      simp [State.after, isValue]
    refine ⟨other, sameMiddle.trans answers.same extended.size_le, ?_, ?_⟩
    · rw [isTable, nextEnv]
      refine answers.sound.bind answers.below ?_ fun name apart => Env.set_of_ne _ _ apart
      rw [Env.set_self, answers.value, isValue]
    · obtain ⟨values', read', performed'⟩ := answers.performs
      have sameDest := (recast_numberInstr place table checked notLabel notPhi).dest?_eq
      refine Instr.exec_eq_some_iff.2 ⟨values', effect, ?_, ?_, ?_, isControl⟩
      · rw [isInstr]
        exact read'
      · rw [isInstr]
        exact performed'
      · rw [sameDest, isNext]
  · refine ⟨middle, sameMiddle, ?_, ?_⟩
    · rw [isTable, ← isNext, noDest]
      exact soundMiddle
    · rw [isInstr]
      refine Instr.exec_eq_some_iff.2 ⟨values, effect, ?_, performedCanonical, ?_, isControl⟩
      · rw [Instr.reads_eq_args checkedCanonical, readCanonical]
      · rw [dest?_canonicalized, isNext]

end Numbering

end Midend
