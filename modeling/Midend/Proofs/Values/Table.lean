import Midend.Proofs.Semantics.Exec
import Midend.Proofs.Sorted
import Midend.Values.Table

/-! # Meaning of value tables

A value table is sound for an environment when its numbers stand for values: variables hold the
values of their numbers, and constants and expressions have the values of theirs
(`ValueTable.Sound`). Each operation on tables keeps soundness, with values for the numbers it
adds. -/

namespace Midend

namespace ExprIndex

/-- Looking up after setting the number of an expression. -/
@[simp] theorem get?_insert (index : ExprIndex) (expr other : Expr) (number : Nat) :
    (insert index expr number).get? other = if expr = other then some number
      else index.get? other := by
  induction index with
  | nil => simp [insert, get?]
  | cons entry tail tailIH =>
    obtain ⟨head, current⟩ := entry
    rw [insert]
    by_cases isHead : head = expr
    · subst isHead
      rw [if_pos rfl, get?, get?]
      split <;> rfl
    · rw [if_neg isHead, get?, get?, tailIH]
      by_cases atHead : head = other
      · have apart : expr ≠ other := fun same => isHead (atHead.trans same.symm)
        rw [if_pos atHead, if_pos atHead, if_neg apart]
      · rw [if_neg atHead, if_neg atHead]

end ExprIndex

namespace ValueTable

variable {table : ValueTable}

/-! ## Views after changes -/

@[simp] theorem numberOf?_pushOpaque (table : ValueTable) (var other : String) :
    (table.pushOpaque var).2.numberOf? other = table.numberOf? other := rfl

@[simp] theorem numberOf?_index (table : ValueTable) (expr : Expr) (number : Nat) (var : String) :
    (table.index expr number).numberOf? var = table.numberOf? var := rfl

@[simp] theorem numberOf?_bind (table : ValueTable) (var other : String) (number : Nat) :
    (table.bind var number).numberOf? other =
      if other = var then some number else table.numberOf? other :=
  SortedMap.get?_insert_eq table.vars var other number

@[simp] theorem numberOf?_push (table : ValueTable) (expr : Expr) (var other : String)
    (constant : Option Literal) :
    (table.push expr var constant).2.numberOf? other = table.numberOf? other := by
  unfold push
  cases constant with
  | none => rfl
  | some literal =>
    dsimp only
    split <;> rfl

@[simp] theorem rows_index (table : ValueTable) (expr : Expr) (number : Nat) :
    (table.index expr number).rows = table.rows := rfl

@[simp] theorem rows_bind (table : ValueTable) (var : String) (number : Nat) :
    (table.bind var number).rows = table.rows := rfl

@[simp] theorem rows_push (table : ValueTable) (expr : Expr) (var : String)
    (constant : Option Literal) :
    (table.push expr var constant).2.rows = table.rows ++ [⟨some expr, var, constant⟩] := by
  unfold push
  cases constant with
  | none => rfl
  | some literal =>
    dsimp only
    split <;> rfl

@[simp] theorem fst_push (table : ValueTable) (expr : Expr) (var : String)
    (constant : Option Literal) : (table.push expr var constant).1 = table.size := by
  unfold push
  cases constant with
  | none => rfl
  | some literal =>
    dsimp only
    split <;> rfl

/-- The variable that stands for a number has that number. -/
theorem numberOf?_of_canonical? {number : Nat} {var : String}
    (found : table.canonical? number = some var) :
    table.numberOf? var = some number ∧ ∃ row, table.row? number = some row ∧ row.var = var := by
  unfold canonical? at found
  split at found
  · rename_i held
    obtain ⟨row, isRow, rfl⟩ := Option.map_eq_some_iff.1 found
    rw [holds, isRow] at held
    exact ⟨by simpa using held, row, isRow, rfl⟩
  · cases found

/-- An expression that is found has its number. -/
theorem get?_of_lookup? {expr : Expr} {number : Nat} (found : table.lookup? expr = some number) :
    table.exprs.get? expr = some number ∧ table.holds number = true := by
  rw [lookup?, Option.filter_eq_some_iff] at found
  exact found

/-! ## Soundness -/

/-- An expression has the value of its number, where a run computes it. Merges have a meaning only in
their own block. -/
def Means (machine : Machine) (size : Nat) (val : Nat → Option Value) : Expr → Nat → Prop
  | .const literal, number => val number = some literal.toValue
  | .op op args, number => (∀ arg ∈ args, arg < size) ∧ ∀ values value,
      args.mapM val = some values → machine.apply op values = some value → val number = some value
  | .phi _ _, _ => True

/-- Values for the numbers of a table that fit an environment. -/
structure Sound (machine : Machine) (table : ValueTable) (val : Nat → Option Value) (env : Env) :
    Prop where
  /-- Variables hold the values of their numbers. -/
  var : ∀ var number, table.numberOf? var = some number → number < table.size ∧
    env var = val number
  /-- Known constants are right. -/
  constant : ∀ number literal, table.constant? number = some literal →
    val number = some literal.toValue
  /-- Expressions have the values of their numbers. -/
  expr : ∀ expr number, table.exprs.get? expr = some number → number < table.size ∧
    Means machine table.size val expr number

/-- Values that are the same for all numbers of a table. -/
def SameBelow (size : Nat) (val other : Nat → Option Value) : Prop :=
  ∀ number, number < size → other number = val number

theorem SameBelow.refl (size : Nat) (val : Nat → Option Value) : SameBelow size val val :=
  fun _ _ => rfl

theorem SameBelow.trans {size larger : Nat} {first second third : Nat → Option Value}
    (left : SameBelow size first second) (right : SameBelow larger second third)
    (grows : size ≤ larger) : SameBelow size first third := fun number below =>
  (right number (Nat.lt_of_lt_of_le below grows)).trans (left number below)

/-- A new value for the next number changes no other. -/
theorem sameBelow_update (size : Nat) (val : Nat → Option Value) (value : Option Value) :
    SameBelow size val (Function.update val size value) := fun _ below =>
  Function.update_of_ne (Nat.ne_of_lt below) ..

/-- The meaning of an expression does not depend on numbers that come later. -/
theorem Means.mono {machine : Machine} {size larger : Nat} {val other : Nat → Option Value}
    {expr : Expr} {number : Nat} (means : Means machine size val expr number)
    (below : number < size) (grows : size ≤ larger) (same : SameBelow size val other) :
    Means machine larger other expr number := by
  cases expr with
  | const literal => exact (same number below).trans means
  | op op args =>
    refine ⟨fun arg member => Nat.lt_of_lt_of_le (means.1 arg member) grows,
      fun values value found applied => (same number below).trans ?_⟩
    refine means.2 values value ?_ applied
    rw [← found]
    exact mapM_congr_left fun arg member => (same arg (means.1 arg member)).symm
  | phi block incoming => trivial

namespace Sound

variable {machine : Machine} {val : Nat → Option Value} {env : Env}

/-- The table without values is sound. -/
theorem empty (machine : Machine) (val : Nat → Option Value) (env : Env) :
    Sound machine {} val env :=
  ⟨by simp [numberOf?], by simp [constant?, row?], by simp [ExprIndex.get?]⟩

/-- Soundness depends only on the variables that have numbers. -/
theorem congr (sound : Sound machine table val env) {other : Env}
    (same : ∀ var number, table.numberOf? var = some number → other var = env var) :
    Sound machine table val other :=
  ⟨fun var number found => ⟨(sound.var var number found).1,
    (same var number found).trans (sound.var var number found).2⟩, sound.constant, sound.expr⟩

/-- A variable gets a number whose value it holds. -/
theorem bind (sound : Sound machine table val env) {var : String} {number : Nat} {other : Env}
    (below : number < table.size) (atVar : other var = val number)
    (same : ∀ name, name ≠ var → other name = env name) :
    Sound machine (table.bind var number) val other := by
  refine ⟨fun name found isFound => ?_, sound.constant, sound.expr⟩
  rw [numberOf?_bind] at isFound
  split at isFound
  · rename_i isVar
    obtain rfl := Option.some.inj isFound
    exact ⟨below, isVar ▸ atVar⟩
  · rename_i apart
    obtain ⟨below, held⟩ := sound.var name found isFound
    exact ⟨below, (same name apart).trans held⟩

/-- An expression gets a number whose value it has. -/
theorem index (sound : Sound machine table val env) {expr : Expr} {number : Nat}
    (below : number < table.size) (means : Means machine table.size val expr number) :
    Sound machine (table.index expr number) val env := by
  refine ⟨sound.var, sound.constant, fun other found isFound => ?_⟩
  change (ExprIndex.insert table.exprs expr number).get? other = some found at isFound
  rw [ExprIndex.get?_insert] at isFound
  split at isFound
  · rename_i same
    obtain rfl := Option.some.inj isFound
    exact same ▸ ⟨below, means⟩
  · exact sound.expr other found isFound

/-- A new row gets a value of its own. -/
theorem addRow (sound : Sound machine table val env) (row : Row) {value : Option Value}
    (isConstant : ∀ literal, row.constant = some literal → value = some literal.toValue) :
    Sound machine { table with rows := table.rows ++ [row] }
      (Function.update val table.size value) env := by
  have grows : table.size ≤ ({ table with rows := table.rows ++ [row] } : ValueTable).size := by
    simp [size]
  have same := sameBelow_update table.size val value
  refine ⟨fun var number found => ?_, fun number literal found => ?_, fun expr number found => ?_⟩
  · obtain ⟨below, held⟩ := sound.var var number found
    exact ⟨Nat.lt_of_lt_of_le below grows, held.trans (same number below).symm⟩
  · rw [constant?, row?, List.getElem?_append] at found
    split at found
    · rename_i below
      exact (same number below).trans (sound.constant number literal found)
    · rename_i above
      obtain ⟨other, isOther, isLiteral⟩ := Option.bind_eq_some_iff.1 found
      obtain ⟨atEnd, rfl⟩ : number - table.rows.length = 0 ∧ row = other := by
        rw [List.getElem?_singleton] at isOther
        split at isOther
        · rename_i isZero
          exact ⟨isZero, Option.some.inj isOther⟩
        · cases isOther
      have isNew : number = table.size := by
        rw [size]
        omega
      rw [isNew, Function.update_self]
      exact isConstant literal isLiteral
  · obtain ⟨below, means⟩ := sound.expr expr number found
    exact ⟨Nat.lt_of_lt_of_le below grows, means.mono below grows same⟩

/-- A variable gets a new number. -/
theorem define (sound : Sound machine table val env) (var : String) :
    Sound machine (table.define var) (Function.update val table.size (env var)) env := by
  have noConstant : ∀ literal, (none : Option Literal) = some literal →
      env var = some literal.toValue := by simp
  have added := sound.addRow ⟨none, var, none⟩ noConstant
  refine added.bind ?_ ?_ fun _ _ => rfl
  · simp [size]
  · rw [Function.update_self]

/-- The value of an expression gets a new number. -/
theorem push (sound : Sound machine table val env) {expr : Expr} {constant : Option Literal}
    {value : Option Value} (var : String)
    (isConstant : ∀ literal, constant = some literal → value = some literal.toValue)
    (means : Means machine (table.size + 1) (Function.update val table.size value) expr
      table.size) :
    Sound machine (table.push expr var constant).2 (Function.update val table.size value) env := by
  have added := sound.addRow ⟨some expr, var, constant⟩ isConstant
  have size_eq : ({ table with rows := table.rows ++ [⟨some expr, var, constant⟩] } :
      ValueTable).size = table.size + 1 := by simp [size]
  have below : table.size < ({ table with rows := table.rows ++ [⟨some expr, var, constant⟩] } :
      ValueTable).size := by omega
  have indexed := added.index below (size_eq ▸ means)
  unfold ValueTable.push
  cases constant with
  | none => exact indexed
  | some literal =>
    dsimp only
    split
    · refine indexed.index below ?_
      rw [Means, Function.update_self]
      exact isConstant literal rfl
    · exact indexed

end Sound

end ValueTable

end Midend
