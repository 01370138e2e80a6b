import Midend.Proofs.Values.Settled

/-! # Tables of code that was numbered

Code that was numbered can be numbered again with a table of its own. What the new table knows of the
code, the old one knew under other numbers (`ValueTable.Mirrors`). Variables that were only used in
what became constants are not read any more, so they may have no number in the new table. -/

namespace Midend

/-- Numbers are put in order by what they are: sorting does not depend on the order before. -/
theorem sortBy_eq_of_perm {left right : List Nat} (perm : left.Perm right) :
    sortBy (fun first second => decide (first ≤ second)) left =
      sortBy (fun first second => decide (first ≤ second)) right := by
  have inserted : ∀ (number : Nat) {list : List Nat}, list.Pairwise (· ≤ ·) →
      (insertBy (fun first second => decide (first ≤ second)) number list).Pairwise (· ≤ ·) := by
    intro number list sorted
    induction sorted with
    | nil => exact List.pairwise_singleton _ _
    | @cons head tail below sorted tailIH =>
      rw [insertBy]
      split
      · rename_i before
        have first := of_decide_eq_true before
        refine .cons (fun other member => ?_) (.cons below sorted)
        rcases List.mem_cons.1 member with rfl | inTail
        · exact first
        · exact first.trans (below other inTail)
      · rename_i notBefore
        have later : head ≤ number := Nat.le_of_lt (Nat.lt_of_not_le (by simpa using notBefore))
        refine .cons (fun other member => ?_) tailIH
        rcases List.mem_cons.1 ((insertBy_perm _ number tail).subset member) with rfl | inTail
        · exact later
        · exact below other inTail
  have sorted : ∀ list : List Nat,
      (sortBy (fun first second => decide (first ≤ second)) list).Pairwise (· ≤ ·) := by
    intro list
    induction list with
    | nil => exact .nil
    | cons head tail tailIH => exact inserted head tailIH
  exact List.Perm.eq_of_pairwise (fun _ _ _ _ => Nat.le_antisymm) (sorted left) (sorted right)
    ((sortBy_perm _ left).trans (perm.trans (sortBy_perm _ right).symm))

/-- The numbers in an expression may be changed before or after they are put in order. -/
theorem Expr.ofOp_map {op : Opcode} {numbers ordered : List Nat}
    (isExpr : ofOp op numbers = .op op ordered) (change : Nat → Nat) :
    ofOp op (ordered.map change) = ofOp op (numbers.map change) := by
  have isOrdered : (if op.isCommutative then sortBy (fun first second => decide (first ≤ second)) numbers
      else numbers) = ordered := (Expr.op.inj isExpr).2
  unfold ofOp
  split at isOrdered
  · rename_i commutative
    rw [if_pos commutative, if_pos commutative, ← isOrdered,
      sortBy_eq_of_perm ((sortBy_perm _ numbers).map change)]
  · rw [isOrdered]

/-- The numbers in an expression are those that it was made of. -/
theorem Expr.mem_of_ofOp {op : Opcode} {numbers ordered : List Nat}
    (isExpr : ofOp op numbers = .op op ordered) {number : Nat} (member : number ∈ ordered) :
    number ∈ numbers := by
  have isOrdered := (Expr.op.inj isExpr).2
  split at isOrdered
  · rw [← isOrdered] at member
    exact (sortBy_perm _ numbers).subset member
  · rwa [isOrdered]

/-- An operation is not a constant. -/
theorem Expr.ofOp_ne_const (op : Opcode) (numbers : List Nat) (literal : Literal) :
    ofOp op numbers ≠ .const literal := by
  unfold ofOp
  exact nofun

namespace ValueTable

variable {table mirror : ValueTable}

/-! ## Numbers -/

/-- The numbers of another table stand for numbers of a table, given by `change`: they have the same
rows, constants and operations. -/
structure Stands (change : Nat → Nat) (table mirror : ValueTable) : Prop where
  /-- Different numbers stand for different ones. -/
  injective : Set.InjOn change (Set.Iio mirror.size)
  /-- Values are held by the same variables and are the same constants. -/
  row : ∀ number row, mirror.row? number = some row → ∃ origin,
    table.row? (change number) = some origin ∧ origin.var = row.var ∧ origin.constant = row.constant
  /-- Expressions have numbers of the table. -/
  expr_lt : ∀ expr number, mirror.exprs.get? expr = some number → number < mirror.size
  /-- Constants have the same numbers. -/
  const : ∀ literal, table.exprs.get? (.const literal) =
    (mirror.exprs.get? (.const literal)).map change
  /-- Operations have the same numbers. -/
  op : ∀ op ordered number, mirror.exprs.get? (.op op ordered) = some number →
    (∀ arg ∈ ordered, arg < mirror.size) ∧
      table.exprs.get? (Expr.ofOp op (ordered.map change)) = some (change number)

/-- A table that knows, under other numbers, what a table knows. Variables may have no number in it if
nothing is known of their values. -/
structure Mirrors (change : Nat → Nat) (table mirror : ValueTable) : Prop
    extends Stands change table mirror where
  /-- Variables have the same values. -/
  var : ∀ var number, mirror.numberOf? var = some number →
    number < mirror.size ∧ table.numberOf? var = some (change number)
  /-- Variables without a number hold values that no number stands for, and that are not known. -/
  missing : ∀ var number, mirror.numberOf? var = none → table.numberOf? var = some number →
    table.row? number = some ⟨none, var, none⟩ ∧ ∀ other < mirror.size, change other ≠ number

namespace Stands

variable {change : Nat → Nat} {number : Nat}

/-- Numbers of the mirror stand for numbers of the table. -/
theorem change_lt (stands : Stands change table mirror) (below : number < mirror.size) :
    change number < table.size := by
  obtain ⟨row, isRow⟩ := exists_row? below
  obtain ⟨origin, isOrigin, _⟩ := stands.row number row isRow
  exact lt_size_of_row? isOrigin

/-- Constants are the same. -/
theorem constant?_eq (stands : Stands change table mirror) (below : number < mirror.size) :
    mirror.constant? number = table.constant? (change number) := by
  obtain ⟨row, isRow⟩ := exists_row? below
  obtain ⟨origin, isOrigin, _, sameConstant⟩ := stands.row number row isRow
  rw [constant?, constant?, isRow, isOrigin, Option.bind_some, Option.bind_some, sameConstant]

/-- A new row stands for one that no other stands for. -/
theorem addRow (stands : Stands change table mirror) {after : ValueTable} {origin row : Row}
    (isOrigin : after.row? number = some origin) (sameVar : origin.var = row.var)
    (sameConstant : origin.constant = row.constant)
    (apart : ∀ other < mirror.size, change other ≠ number)
    (kept : ∀ other row, table.row? other = some row → after.row? other = some row)
    (sameExprs : after.exprs = table.exprs) :
    Stands (Function.update change mirror.size number) after (mirror.addRow row) := by
  have same : ∀ {other}, other < mirror.size →
      Function.update change mirror.size number other = change other := fun below =>
    Function.update_of_ne (Nat.ne_of_lt below) ..
  have isNew : Function.update change mirror.size number mirror.size = number :=
    Function.update_self ..
  have cases : ∀ {other}, other < (mirror.addRow row).size →
      other < mirror.size ∨ other = mirror.size := by
    intro other below
    rw [size_addRow] at below
    omega
  -- What concerns old rows stays true, since the correspondence changes for the new row only.
  refine ⟨fun left leftBelow right rightBelow equal => ?_, fun other found isRow => ?_,
    fun expr other found => ?_, fun literal => ?_, fun op ordered other found => ?_⟩
  · rcases cases leftBelow with isLeft | rfl <;> rcases cases rightBelow with isRight | rfl
    · rw [same isLeft, same isRight] at equal
      exact stands.injective isLeft isRight equal
    · rw [same isLeft, isNew] at equal
      exact absurd equal (apart left isLeft)
    · rw [same isRight, isNew] at equal
      exact absurd equal.symm (apart right isRight)
    · rfl
  · rcases cases (lt_size_of_row? isRow) with below | rfl
    · rw [row?_addRow, if_neg (Nat.ne_of_lt below)] at isRow
      rw [same below]
      obtain ⟨first, isFirst, sameRow⟩ := stands.row other found isRow
      exact ⟨first, kept _ _ isFirst, sameRow⟩
    · rw [row?_addRow, if_pos rfl] at isRow
      obtain rfl := Option.some.inj isRow
      exact ⟨origin, by rw [isNew, isOrigin], sameVar, sameConstant⟩
  · rw [size_addRow]
    exact Nat.lt_succ_of_lt (stands.expr_lt expr other found)
  · rw [sameExprs]
    refine (stands.const literal).trans (Option.map_congr fun other found => ?_)
    exact (same (stands.expr_lt _ other found)).symm
  · obtain ⟨below, atTable⟩ := stands.op op ordered other found
    refine ⟨fun arg member => by rw [size_addRow]; exact Nat.lt_succ_of_lt (below arg member), ?_⟩
    rw [same (stands.expr_lt _ other found), sameExprs,
      List.map_congr_left fun arg member => same (below arg member)]
    exact atTable

/-- A constant gets the same number. -/
theorem indexConst (stands : Stands change table mirror) (literal : Literal)
    (below : number < mirror.size) : Stands change (table.index (.const literal) (change number))
      (mirror.index (.const literal) number) := by
  refine ⟨stands.injective, stands.row, fun expr other found => ?_, fun other => ?_,
    fun op ordered other found => ?_⟩
  · rw [get?_index] at found
    split at found
    · obtain rfl := Option.some.inj found
      exact below
    · exact stands.expr_lt expr other found
  · rw [get?_index, get?_index]
    split
    · rfl
    · exact stands.const other
  · rw [get?_index, if_neg nofun] at found
    rw [get?_index, if_neg (Expr.ofOp_ne_const op _ literal).symm]
    exact stands.op op ordered other found

/-- An operation that is new gets the same number. -/
theorem indexOp (stands : Stands change table mirror) (op : Opcode) {numbers : List Nat}
    (args : ∀ arg ∈ numbers, arg < mirror.size)
    (absent : table.exprs.get? (Expr.ofOp op (numbers.map change)) = none)
    (below : number < mirror.size) :
    Stands change (table.index (Expr.ofOp op (numbers.map change)) (change number))
      (mirror.index (Expr.ofOp op numbers) number) := by
  refine ⟨stands.injective, stands.row, fun expr other found => ?_, fun literal => ?_,
    fun op' ordered other found => ?_⟩
  · rw [get?_index] at found
    split at found
    · obtain rfl := Option.some.inj found
      exact below
    · exact stands.expr_lt expr other found
  · rw [get?_index, get?_index, if_neg (Expr.ofOp_ne_const _ _ literal),
      if_neg (Expr.ofOp_ne_const _ _ literal)]
    exact stands.const literal
  · rw [get?_index] at found
    rw [get?_index]
    split at found
    · rename_i isExpr
      obtain rfl := Option.some.inj found
      obtain rfl : op = op' := (Expr.op.inj isExpr).1
      exact ⟨fun arg member => args arg (Expr.mem_of_ofOp isExpr member),
        if_pos (Expr.ofOp_map isExpr change).symm⟩
    · obtain ⟨inMirror, atTable⟩ := stands.op op' ordered other found
      refine ⟨inMirror, ?_⟩
      rw [if_neg, atTable]
      intro same
      rw [same, atTable] at absent
      cases absent

/-- An operation that is new gets a number in the table only. -/
theorem indexOp_left (stands : Stands change table mirror) (op : Opcode) {numbers : List Nat}
    (absent : table.exprs.get? (Expr.ofOp op numbers) = none) (number : Nat) :
    Stands change (table.index (Expr.ofOp op numbers) number) mirror := by
  refine ⟨stands.injective, stands.row, stands.expr_lt, fun literal => ?_,
    fun op' ordered other found => ?_⟩
  · rw [get?_index, if_neg (Expr.ofOp_ne_const _ _ literal)]
    exact stands.const literal
  · obtain ⟨inMirror, atTable⟩ := stands.op op' ordered other found
    refine ⟨inMirror, ?_⟩
    rw [get?_index, if_neg, atTable]
    intro same
    rw [same, atTable] at absent
    cases absent

/-- Setting the number that an expression has changes nothing. -/
theorem index_again (stands : Stands change table mirror) {expr : Expr}
    (found : mirror.exprs.get? expr = some number) : Stands change table (mirror.index expr number) := by
  have same : ∀ other, (mirror.index expr number).exprs.get? other = mirror.exprs.get? other := by
    intro other
    rw [get?_index]
    split
    · rename_i isExpr
      rw [← isExpr, found]
    · rfl
  refine ⟨stands.injective, stands.row, fun other number => ?_, fun literal => ?_,
    fun op ordered number => ?_⟩
  · rw [same]
    exact stands.expr_lt other number
  · rw [same]
    exact stands.const literal
  · rw [same]
    exact stands.op op ordered number

end Stands

/-! ## Variables -/

namespace Mirrors

variable {change : Nat → Nat} {number : Nat} {dest : String}

/-- A table in which no expression has a number mirrors itself. -/
theorem refl (noExprs : table.exprs = [])
    (below : ∀ var number, table.numberOf? var = some number → number < table.size) :
    Mirrors id table table where
  injective := Function.injective_id.injOn
  row := fun _ row isRow => ⟨row, isRow, rfl, rfl⟩
  expr_lt := by simp [noExprs, ExprIndex.get?]
  const := by simp [noExprs, ExprIndex.get?]
  op := by simp [noExprs, ExprIndex.get?]
  var := fun var number found => ⟨below var number found, found⟩
  missing := fun var number absent found => by
    rw [absent] at found
    cases found

/-- A value is held in the mirror if it is held in the table. -/
theorem holds_eq (mirrors : Mirrors change table mirror) (below : number < mirror.size) :
    mirror.holds number = table.holds (change number) := by
  obtain ⟨row, isRow⟩ := exists_row? below
  obtain ⟨origin, isOrigin, sameVar, _⟩ := mirrors.row number row isRow
  simp only [ValueTable.holds, isRow, isOrigin, sameVar]
  cases found : mirror.numberOf? row.var with
  | none =>
    rw [decide_eq_false (Option.some_ne_none number).symm, eq_comm, decide_eq_false]
    exact fun held => (mirrors.missing row.var _ found held).2 number below rfl
  | some other =>
    obtain ⟨otherBelow, isOther⟩ := mirrors.var row.var other found
    rw [isOther, decide_eq_decide, Option.some.injEq, Option.some.injEq,
      mirrors.injective.eq_iff otherBelow below]

/-- Canonical variables are the same. -/
theorem canonical?_eq (mirrors : Mirrors change table mirror) (below : number < mirror.size) :
    mirror.canonical? number = table.canonical? (change number) := by
  obtain ⟨row, isRow⟩ := exists_row? below
  obtain ⟨origin, isOrigin, sameVar, _⟩ := mirrors.row number row isRow
  rw [canonical?, canonical?, mirrors.holds_eq below, isRow, isOrigin, Option.map_some,
    Option.map_some, sameVar]

/-- The variable that stands for the value of an expression has a number. -/
theorem exists_numberOf? (mirrors : Mirrors change table mirror) {row : Row}
    (isRow : table.row? number = some row) (isSome : row.expr.isSome)
    (held : table.numberOf? row.var = some number) :
    ∃ other < mirror.size, change other = number ∧ mirror.numberOf? row.var = some other := by
  cases found : mirror.numberOf? row.var with
  | none =>
    have noExpr := (mirrors.missing row.var number found held).1
    rw [congrArg Row.expr (Option.some.inj (isRow.symm.trans noExpr))] at isSome
    cases isSome
  | some other =>
    obtain ⟨below, same⟩ := mirrors.var row.var other found
    exact ⟨other, below, Option.some.inj (same.symm.trans held), rfl⟩

/-- A change of the expressions of both tables. -/
theorem of_stands (mirrors : Mirrors change table mirror) {after image : ValueTable}
    (stands : Stands change after image) (rows : after.rows = table.rows)
    (imageRows : image.rows = mirror.rows) (vars : after.vars = table.vars)
    (imageVars : image.vars = mirror.vars) : Mirrors change after image := by
  refine ⟨stands, fun var number found => ?_, fun var number absent found => ?_⟩
  · rw [numberOf?, imageVars] at found
    rw [size, imageRows, numberOf?, vars]
    exact mirrors.var var number found
  · rw [numberOf?, imageVars] at absent
    rw [numberOf?, vars] at found
    rw [row?, rows, size, imageRows]
    exact mirrors.missing var number absent found

/-- An operation that is new gets a number in the table only. -/
theorem indexOp_left (mirrors : Mirrors change table mirror) (op : Opcode) {numbers : List Nat}
    (absent : table.exprs.get? (Expr.ofOp op numbers) = none) (number : Nat) :
    Mirrors change (table.index (Expr.ofOp op numbers) number) mirror :=
  mirrors.of_stands (mirrors.toStands.indexOp_left op absent number) rfl rfl rfl rfl

/-- A variable gets the same value. -/
theorem bind (mirrors : Mirrors change table mirror) (dest : String) (below : number < mirror.size) :
    Mirrors change (table.bind dest (change number)) (mirror.bind dest number) := by
  refine ⟨⟨mirrors.injective, mirrors.row, mirrors.expr_lt, mirrors.const, mirrors.op⟩,
    fun var other found => ?_, fun var other absent found => ?_⟩
  · rw [numberOf?_bind] at found ⊢
    split at found
    · rename_i isDest
      obtain rfl := Option.some.inj found
      exact ⟨below, if_pos isDest⟩
    · rename_i apart
      rw [if_neg apart]
      exact mirrors.var var other found
  · rw [numberOf?_bind] at absent found
    split at absent
    · cases absent
    · rename_i apart
      rw [if_neg apart] at found
      exact mirrors.missing var other absent found

/-- Both tables get a row of the same variable with the same constant. -/
theorem addRow (mirrors : Mirrors change table mirror) {origin row : Row}
    (sameVar : origin.var = row.var) (sameConstant : origin.constant = row.constant) :
    Mirrors (Function.update change mirror.size table.size) (table.addRow origin)
      (mirror.addRow row) := by
  have isOld : ∀ other row, table.row? other = some row → (table.addRow origin).row? other = some row :=
    fun other row isRow => by rw [row?_addRow, if_neg (Nat.ne_of_lt (lt_size_of_row? isRow)), isRow]
  have apart : ∀ other < mirror.size, change other ≠ table.size := fun other below =>
    Nat.ne_of_lt (mirrors.change_lt below)
  refine ⟨mirrors.toStands.addRow (by rw [row?_addRow, if_pos rfl]) sameVar sameConstant apart isOld rfl,
    fun var number found => ?_, fun var number absent found => ?_⟩
  · obtain ⟨below, held⟩ := mirrors.var var number found
    rw [Function.update_of_ne (Nat.ne_of_lt below), size_addRow]
    exact ⟨Nat.lt_succ_of_lt below, held⟩
  · obtain ⟨isRow, notOther⟩ := mirrors.missing var number absent found
    refine ⟨isOld _ _ isRow, fun other below => ?_⟩
    rw [size_addRow] at below
    rcases Nat.lt_succ_iff_lt_or_eq.1 below with old | rfl
    · rw [Function.update_of_ne (Nat.ne_of_lt old)]
      exact notOther other old
    · rw [Function.update_self]
      exact (Nat.ne_of_lt (lt_size_of_row? isRow)).symm

/-- A variable gets a value of which nothing is known. -/
theorem define (mirrors : Mirrors change table mirror) (dest : String) :
    Mirrors (Function.update change mirror.size table.size) (table.define dest)
      (mirror.define dest) := by
  have added : Mirrors (Function.update change mirror.size table.size)
      (table.addRow ⟨none, dest, none⟩) (mirror.addRow ⟨none, dest, none⟩) := mirrors.addRow rfl rfl
  have below : mirror.size < (mirror.addRow ⟨none, dest, none⟩).size := by simp
  have bound := added.bind dest below
  rwa [Function.update_self] at bound

/-- A variable gets the value of an operation that is new. -/
theorem exists_push (mirrors : Mirrors change table mirror) (dest : String) (op : Opcode)
    {numbers : List Nat} (args : ∀ arg ∈ numbers, arg < mirror.size)
    (absent : table.exprs.get? (Expr.ofOp op (numbers.map change)) = none) :
    ∃ after, Mirrors after
      ((table.push (Expr.ofOp op (numbers.map change)) dest none).2.bind dest table.size)
      ((mirror.push (Expr.ofOp op numbers) dest none).2.bind dest mirror.size) := by
  have added : Mirrors (Function.update change mirror.size table.size)
      (table.addRow ⟨some (Expr.ofOp op (numbers.map change)), dest, none⟩)
      (mirror.addRow ⟨some (Expr.ofOp op numbers), dest, none⟩) := mirrors.addRow rfl rfl
  have same : numbers.map (Function.update change mirror.size table.size) = numbers.map change :=
    List.map_congr_left fun arg member => Function.update_of_ne (Nat.ne_of_lt (args arg member)) ..
  have atSize : Function.update change mirror.size table.size mirror.size = table.size :=
    Function.update_self ..
  generalize Function.update change mirror.size table.size = after at added same atSize
  rw [← same] at absent added ⊢
  have below : mirror.size < (mirror.addRow ⟨some (Expr.ofOp op numbers), dest, none⟩).size := by simp
  have stands := added.toStands.indexOp op (fun arg member => Nat.lt_trans (args arg member) below)
    absent below
  have bound := (added.of_stands stands rfl rfl rfl rfl).bind dest below
  rw [atSize] at bound
  exact ⟨after, bound⟩

/-- A variable gets the value of a constant that is new, whatever it was computed from. -/
theorem exists_push_const (mirrors : Mirrors change table mirror) {literal : Literal}
    (absent : table.exprs.get? (.const literal) = none)
    (inTable : ∀ number, table.numberOf? dest = some number → number < table.size) {expr : Expr}
    (isExpr : expr = .const literal ∨
      ∃ op numbers, expr = Expr.ofOp op numbers ∧ table.exprs.get? expr = none) :
    ∃ after, Mirrors after ((table.push expr dest (some literal)).2.bind dest table.size)
      ((mirror.push (.const literal) dest (some literal)).2.bind dest mirror.size) := by
  have absentMirror : mirror.exprs.get? (.const literal) = none := by
    rwa [mirrors.const, Option.map_eq_none_iff] at absent
  rw [push_of_absent absent inTable,
    push_of_absent absentMirror fun number found => (mirrors.var dest number found).1]
  have added : Mirrors (Function.update change mirror.size table.size)
      (table.addRow ⟨some expr, dest, some literal⟩)
      (mirror.addRow ⟨some (.const literal), dest, some literal⟩) := mirrors.addRow rfl rfl
  have atSize : Function.update change mirror.size table.size mirror.size = table.size :=
    Function.update_self ..
  generalize Function.update change mirror.size table.size = after at added atSize
  rw [← atSize]
  have below : mirror.size < (mirror.addRow ⟨some (.const literal), dest, some literal⟩).size := by simp
  have stands : Stands after (((table.addRow ⟨some expr, dest, some literal⟩).index expr
        (after mirror.size)).index (.const literal) (after mirror.size))
      (((mirror.addRow ⟨some (.const literal), dest, some literal⟩).index (.const literal)
        mirror.size).index (.const literal) mirror.size) := by
    rcases isExpr with rfl | ⟨op, numbers, rfl, isAbsent⟩
    · exact (added.toStands.indexConst literal below).indexConst literal below
    · exact ((added.toStands.indexOp_left op isAbsent _).indexConst literal below).index_again (by simp)
  exact ⟨after, (added.of_stands stands rfl rfl rfl rfl).bind dest below⟩

/-- A variable gets a number in the table only. -/
theorem define_left (mirrors : Mirrors change table mirror) {var : String}
    (absent : table.numberOf? var = none) : Mirrors change (table.define var) mirror := by
  have isOld : ∀ {number row}, table.row? number = some row →
      (table.define var).row? number = some row := fun isRow =>
    (row?_addRow table _ _).trans ((if_neg (Nat.ne_of_lt (lt_size_of_row? isRow))).trans isRow)
  refine ⟨⟨mirrors.injective, fun number row isRow => ?_, mirrors.expr_lt, mirrors.const, mirrors.op⟩,
    fun name number found => ?_, fun name number unbound found => ?_⟩
  · obtain ⟨origin, isOrigin, same⟩ := mirrors.row number row isRow
    exact ⟨origin, isOld isOrigin, same⟩
  · obtain ⟨below, held⟩ := mirrors.var name number found
    refine ⟨below, (numberOf?_bind ..).trans ((if_neg ?_).trans held)⟩
    rintro rfl
    rw [absent] at held
    cases held
  · rw [ValueTable.define, numberOf?_bind] at found
    split at found
    · rename_i isVar
      obtain rfl := Option.some.inj found
      rw [isVar]
      exact ⟨(row?_addRow table _ _).trans (if_pos rfl), fun other below =>
        Nat.ne_of_lt (mirrors.change_lt below)⟩
    · obtain ⟨isRow, apart⟩ := mirrors.missing name number unbound found
      exact ⟨isOld isRow, apart⟩

/-- A variable that has a number in the table gets one in the mirror. -/
theorem define_right (mirrors : Mirrors change table mirror) {var : String}
    (held : table.numberOf? var = some number) (absent : mirror.numberOf? var = none) :
    Mirrors (Function.update change mirror.size number) table (mirror.define var) := by
  obtain ⟨isOrigin, apart⟩ := mirrors.missing var number absent held
  have stands : Stands (Function.update change mirror.size number) table
      (mirror.addRow ⟨none, var, none⟩) :=
    mirrors.toStands.addRow isOrigin rfl rfl apart (fun _ _ => id) rfl
  have size_eq : (mirror.define var).size = mirror.size + 1 := size_addRow ..
  refine ⟨⟨stands.injective, stands.row, stands.expr_lt, stands.const, stands.op⟩,
    fun name other found => ?_, fun name other unbound found => ?_⟩
  · rw [ValueTable.define, numberOf?_bind] at found
    rw [size_eq]
    split at found
    · rename_i isVar
      obtain rfl := Option.some.inj found
      rw [isVar, held]
      exact ⟨Nat.lt_succ_self _, congrArg some (Function.update_self mirror.size number change).symm⟩
    · obtain ⟨below, isHeld⟩ := mirrors.var name other found
      rw [Function.update_of_ne (Nat.ne_of_lt below)]
      exact ⟨Nat.lt_succ_of_lt below, isHeld⟩
  · rw [ValueTable.define, numberOf?_bind] at unbound
    split at unbound
    · cases unbound
    · rename_i notVar
      obtain ⟨isFirst, notOther⟩ := mirrors.missing name other unbound found
      refine ⟨isFirst, fun early below => ?_⟩
      rw [size_eq] at below
      rcases Nat.lt_succ_iff_lt_or_eq.1 below with old | rfl
      · rw [Function.update_of_ne (Nat.ne_of_lt old)]
        exact notOther early old
      · -- The value is held by another variable than this one.
        rw [Function.update_self]
        rintro rfl
        exact notVar (congrArg Row.var (Option.some.inj (isFirst.symm.trans isOrigin)))

/-- A variable gets a number in the table if it has none. -/
theorem numberOrInput_left (mirrors : Mirrors change table mirror) (var : String) :
    Mirrors change (table.numberOrInput var).2 mirror := by
  rcases table.numberOrInput_cases var with ⟨number, found, same⟩ | ⟨absent, same⟩
  · rwa [same]
  · rw [same]
    exact mirrors.define_left absent

/-- A variable gets a number in both tables if it has none. -/
theorem numberOrInput (mirrors : Mirrors change table mirror) (var : String) :
    ∃ after, Mirrors after (table.numberOrInput var).2 (mirror.numberOrInput var).2 ∧
      (mirror.numberOrInput var).1 < (mirror.numberOrInput var).2.size ∧
      after (mirror.numberOrInput var).1 = (table.numberOrInput var).1 := by
  rcases mirror.numberOrInput_cases var with ⟨number, found, isMirror⟩ | ⟨absent, isMirror⟩ <;>
    rcases table.numberOrInput_cases var with ⟨other, held, isTable⟩ | ⟨unbound, isTable⟩ <;>
    rw [isMirror, isTable]
  · obtain ⟨below, same⟩ := mirrors.var var number found
    exact ⟨change, mirrors, below, Option.some.inj (same.symm.trans held)⟩
  · rw [(mirrors.var var number found).2] at unbound
    cases unbound
  · exact ⟨_, mirrors.define_right held absent, (size_addRow mirror ⟨none, var, none⟩).symm ▸
      Nat.lt_succ_self _, Function.update_self ..⟩
  · exact ⟨_, mirrors.define var, (size_addRow mirror ⟨none, var, none⟩).symm ▸ Nat.lt_succ_self _,
      Function.update_self ..⟩

end Mirrors

end ValueTable

end Midend
