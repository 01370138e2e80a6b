import Midend.Proofs.Values.Numbering

/-! # Tables that lose nothing

While instructions are numbered that write every variable once, nothing that is known of a value is
lost: the variable that holds it is not written again (`ValueTable.Settled`), so what was found once is
found ever after (`ValueTable.Settled.lookup?_eq`). -/

namespace Midend

namespace ValueTable

variable {table : ValueTable}

/-! ## Rows -/

/-- A table with one more row. -/
def addRow (table : ValueTable) (row : Row) : ValueTable := { table with rows := table.rows ++ [row] }

@[simp] theorem size_addRow (table : ValueTable) (row : Row) :
    (table.addRow row).size = table.size + 1 := by simp [addRow, size]

@[simp] theorem row?_addRow (table : ValueTable) (row : Row) (number : Nat) :
    (table.addRow row).row? number = if number = table.size then some row else table.row? number := by
  unfold row? addRow size
  rcases Nat.lt_trichotomy number table.rows.length with below | rfl | above
  · rw [List.getElem?_append_left below, if_neg (Nat.ne_of_lt below)]
  · simp
  · rw [if_neg (Nat.ne_of_gt above), List.getElem?_eq_none (by simp; omega),
      List.getElem?_eq_none (by omega)]

@[simp] theorem numberOf?_addRow (table : ValueTable) (row : Row) (var : String) :
    (table.addRow row).numberOf? var = table.numberOf? var := rfl

@[simp] theorem get?_index (table : ValueTable) (expr other : Expr) (number : Nat) :
    (table.index expr number).exprs.get? other =
      if expr = other then some number else table.exprs.get? other := ExprIndex.get?_insert ..

@[simp] theorem constant?_addRow (table : ValueTable) (row : Row) (number : Nat) :
    (table.addRow row).constant? number =
      if number = table.size then row.constant else table.constant? number := by
  unfold constant?
  rw [row?_addRow]
  split <;> rfl

/-- A number that has a row is one of the table. -/
theorem lt_size_of_row? {number : Nat} {row : Row} (found : table.row? number = some row) :
    number < table.size := (List.getElem?_eq_some_iff.1 found).1

/-- Every number of a table has a row. -/
theorem exists_row? {number : Nat} (below : number < table.size) : ∃ row, table.row? number = some row :=
  ⟨table.rows[number], List.getElem?_eq_getElem below⟩

/-- A new constant can be found both by its expression and by its literal. -/
theorem push_of_absent {expr : Expr} {dest : String} {literal : Literal}
    (absent : table.exprs.get? (.const literal) = none)
    (below : ∀ number, table.numberOf? dest = some number → number < table.size) :
    (table.push expr dest (some literal)).2 =
      ((table.addRow ⟨some expr, dest, some literal⟩).index expr table.size).index (.const literal)
        table.size := by
  have notFound : ((table.addRow ⟨some expr, dest, some literal⟩).index expr table.size).lookup?
      (.const literal) = none := by
    rw [lookup?, get?_index]
    split
    · -- The variable does not hold its new value yet.
      rw [Option.filter_eq_none_iff]
      rintro number ⟨⟩
      have isRow : ((table.addRow ⟨some expr, dest, some literal⟩).index expr table.size).row?
          table.size = some ⟨some expr, dest, some literal⟩ := (row?_addRow ..).trans (if_pos rfl)
      rw [holds, isRow]
      intro held
      exact Nat.lt_irrefl _ (below _ (of_decide_eq_true held))
    · rw [show (table.addRow ⟨some expr, dest, some literal⟩).exprs = table.exprs from rfl, absent]
      rfl
  unfold push
  change (if (((table.addRow ⟨some expr, dest, some literal⟩).index expr table.size).lookup?
    (.const literal)).isNone then _ else _ : Nat × ValueTable).2 = _
  rw [notFound]
  rfl

/-- A new value is found by its expression, and by its literal if it is known. -/
theorem get?_push {expr : Expr} {dest : String} {constant : Option Literal}
    (absent : ∀ literal, constant = some literal → table.exprs.get? (.const literal) = none)
    (below : ∀ number, table.numberOf? dest = some number → number < table.size) (other : Expr) :
    (table.push expr dest constant).2.exprs.get? other =
      if other = expr ∨ constant.map Expr.const = some other then some table.size
      else table.exprs.get? other := by
  cases constant with
  | none =>
    change (ExprIndex.insert table.exprs expr table.size).get? other = _
    simp [eq_comm]
  | some literal =>
    rw [push_of_absent (absent literal rfl) below]
    simp only [get?_index, addRow, Option.map_some, Option.some.injEq]
    by_cases isExpr : other = expr
    · simp [isExpr]
    · by_cases isConst : Expr.const literal = other
      · simp [isConst]
      · simp [isExpr, isConst, Ne.symm isExpr]

/-- The rows after a new value. -/
theorem row?_push (table : ValueTable) (expr : Expr) (dest : String) (constant : Option Literal)
    (number : Nat) : (table.push expr dest constant).2.row? number =
      if number = table.size then some ⟨some expr, dest, constant⟩ else table.row? number := by
  rw [row?, rows_push]
  exact row?_addRow table _ number

/-! ## What a table keeps -/

/-- What holds of a table while the given variables are still to be written, each once: what is known
of a value is held by a variable that is not written any more. -/
structure Settled (table : ValueTable) (later : List String) : Prop where
  /-- Variables have numbers of the table. -/
  var_lt : ∀ var number, table.numberOf? var = some number → number < table.size
  /-- The value of an expression is held by a variable that keeps it. -/
  held : ∀ expr number, table.exprs.get? expr = some number →
    ∃ row, table.row? number = some row ∧ row.expr.isSome ∧
      table.numberOf? row.var = some number ∧ row.var ∉ later
  /-- A known constant is found by its literal. -/
  constant : ∀ number literal, table.constant? number = some literal →
    table.exprs.get? (.const literal) = some number

namespace Settled

variable {later : List String} {dest : String}

/-- The empty table keeps all it knows. -/
theorem empty (later : List String) : Settled {} later :=
  ⟨by simp [numberOf?], by simp [ExprIndex.get?], by simp [constant?, row?]⟩

/-- The variable of a value that has an expression holds it. -/
theorem holds (settled : table.Settled later) {expr : Expr} {number : Nat}
    (found : table.exprs.get? expr = some number) : table.holds number = true := by
  obtain ⟨row, isRow, _, held, _⟩ := settled.held expr number found
  simp [ValueTable.holds, isRow, held]

/-- Every expression with a number is found. -/
theorem lookup?_eq (settled : table.Settled later) (expr : Expr) :
    table.lookup? expr = table.exprs.get? expr := by
  unfold lookup?
  cases found : table.exprs.get? expr with
  | none => rfl
  | some number => rw [Option.filter_some, if_pos (settled.holds found)]

/-- The value of an expression has a canonical variable. -/
theorem exists_canonical? (settled : table.Settled later) {expr : Expr} {number : Nat}
    (found : table.exprs.get? expr = some number) :
    ∃ row, table.row? number = some row ∧ row.expr.isSome ∧
      table.numberOf? row.var = some number ∧ table.canonical? number = some row.var := by
  obtain ⟨row, isRow, isSome, held, _⟩ := settled.held expr number found
  exact ⟨row, isRow, isSome, held, by rw [canonical?, if_pos (settled.holds found), isRow]; rfl⟩

/-- The number of an expression is one of the table. -/
theorem expr_lt (settled : table.Settled later) {expr : Expr} {number : Nat}
    (found : table.exprs.get? expr = some number) : number < table.size := by
  obtain ⟨row, isRow, _⟩ := settled.held expr number found
  exact lt_size_of_row? isRow

/-- A variable without a number may be written at any time. -/
theorem of_unbound (settled : table.Settled later) {var : String}
    (absent : table.numberOf? var = none) : table.Settled (var :: later) := by
  refine ⟨settled.var_lt, fun expr number found => ?_, settled.constant⟩
  obtain ⟨row, isRow, isSome, held, notLater⟩ := settled.held expr number found
  refine ⟨row, isRow, isSome, held, ?_⟩
  rw [List.mem_cons, not_or]
  refine ⟨?_, notLater⟩
  rintro rfl
  rw [absent] at held
  cases held

/-- A variable is written. -/
theorem bind (settled : table.Settled (dest :: later)) {number : Nat} (below : number < table.size) :
    (table.bind dest number).Settled later := by
  refine ⟨fun var other found => ?_, fun expr other found => ?_, settled.constant⟩
  · rw [numberOf?_bind] at found
    split at found
    · obtain rfl := Option.some.inj found
      exact below
    · exact settled.var_lt var other found
  · obtain ⟨row, isRow, isSome, held, notLater⟩ := settled.held expr other found
    rw [List.mem_cons, not_or] at notLater
    exact ⟨row, isRow, isSome, by rw [numberOf?_bind, if_neg notLater.1, held], notLater.2⟩

/-- Another expression gets the number of an expression. -/
theorem index (settled : table.Settled later) {expr other : Expr} {number : Nat}
    (found : table.exprs.get? other = some number) (notConst : ∀ literal, expr ≠ .const literal) :
    (table.index expr number).Settled later := by
  refine ⟨settled.var_lt, fun some' number' found' => ?_, fun number' literal isConstant => ?_⟩
  · rw [get?_index] at found'
    split at found'
    · obtain rfl := Option.some.inj found'
      exact settled.held other number found
    · exact settled.held some' number' found'
  · rw [get?_index, if_neg (notConst literal)]
    exact settled.constant number' literal isConstant

/-- A variable is written with a value of which nothing is known. -/
theorem define (settled : table.Settled (dest :: later)) : (table.define dest).Settled later := by
  change ((table.addRow ⟨none, dest, none⟩).bind dest table.size).Settled later
  have added : (table.addRow ⟨none, dest, none⟩).Settled (dest :: later) := by
    refine ⟨fun var number found => ?_, fun expr number found => ?_, fun number literal found => ?_⟩
    · have below := settled.var_lt var number found
      rw [size_addRow]
      omega
    · obtain ⟨row, isRow, isHeld⟩ := settled.held expr number found
      exact ⟨row, by rw [row?_addRow, if_neg (Nat.ne_of_lt (lt_size_of_row? isRow)), isRow], isHeld⟩
    · rw [constant?_addRow] at found
      split at found
      · cases found
      · exact settled.constant number literal found
  exact added.bind (by simp)

/-- Variables are written with values of which nothing is known. -/
theorem foldl_define {vars : List String} (settled : table.Settled (vars ++ later)) :
    (vars.foldl ValueTable.define table).Settled later := by
  induction vars generalizing table with
  | nil => exact settled
  | cons var rest restIH => exact restIH settled.define

/-- A variable gets a number if it has none. -/
theorem numberOrInput (settled : table.Settled later) (var : String) :
    (table.numberOrInput var).2.Settled later := by
  rcases table.numberOrInput_cases var with ⟨number, found, same⟩ | ⟨absent, same⟩
  · rwa [same]
  · rw [same]
    exact (settled.of_unbound absent).define

/-- A variable is written, for the last time, with a value that has an expression. -/
theorem push (settled : table.Settled (dest :: later)) (last : dest ∉ later) {expr : Expr}
    {constant : Option Literal}
    (absent : ∀ literal, constant = some literal → table.exprs.get? (.const literal) = none)
    (known : ∀ literal, expr = .const literal → constant = some literal) :
    ((table.push expr dest constant).2.bind dest table.size).Settled later := by
  have below := settled.var_lt dest
  refine ⟨fun var number found => ?_, fun other number found => ?_, fun number literal found => ?_⟩
  · change number < (table.push expr dest constant).2.rows.length
    rw [rows_push, List.length_append, List.length_singleton]
    rw [numberOf?_bind, numberOf?_push] at found
    split at found
    · obtain rfl := Option.some.inj found
      exact Nat.lt_succ_self _
    · exact Nat.lt_succ_of_lt (settled.var_lt var number found)
  · change ∃ row, (table.push expr dest constant).2.row? number = some row ∧ _
    rw [ValueTable.bind, get?_push absent below] at found
    simp only [row?_push, numberOf?_bind, numberOf?_push]
    split at found
    · obtain rfl := Option.some.inj found
      exact ⟨_, if_pos rfl, rfl, if_pos rfl, last⟩
    · obtain ⟨row, isRow, isSome, held, notLater⟩ := settled.held other number found
      rw [List.mem_cons, not_or] at notLater
      exact ⟨row, by rw [if_neg (Nat.ne_of_lt (lt_size_of_row? isRow)), isRow], isSome,
        by rw [if_neg notLater.1, held], notLater.2⟩
  · change (table.push expr dest constant).2.constant? number = some literal at found
    rw [ValueTable.bind, get?_push absent below]
    rw [constant?, row?_push] at found
    split at found
    · rename_i isSize
      have isConstant : constant = some literal := found
      rw [if_pos (.inr (by rw [isConstant]; rfl)), isSize]
    · have atLiteral := settled.constant number literal found
      rw [if_neg, atLiteral]
      -- An old constant is found under its own number: the new row does not take its place.
      rintro (isExpr | isLiteral)
      · have impossible := absent literal (known literal isExpr.symm)
        rw [atLiteral] at impossible
        cases impossible
      · obtain ⟨other, isOther, ⟨⟩⟩ := Option.map_eq_some_iff.1 isLiteral
        have impossible := absent literal isOther
        rw [atLiteral] at impossible
        cases impossible

end Settled

end ValueTable

end Midend
