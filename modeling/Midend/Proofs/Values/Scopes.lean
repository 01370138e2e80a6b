import Midend.Proofs.Values.Table

/-! # Scopes of value tables

Rows are only ever added to a value table, and the journal remembers what the two maps held before
each change. So a table that grew from another one (`ValueTable.GrownFrom`) is taken back to it by a
rollback (`ValueTable.GrownFrom.rollback`). Checkpoints may be taken inside of others; a sequence of
changes, checkpoints and rollbacks in which a rollback leads to a checkpoint that is still open keeps
one table for each open checkpoint, each grown from the one before it (`ValueTable.Opened`). Whatever
is done after a checkpoint was taken, rolling back to it gives the table that there was
(`ValueTable.rollback_restores`). -/

namespace Midend

/-! ## One change taken back -/

namespace ExprIndex

/-- Setting an expression back to the number that it had. -/
theorem insert_insert {index : ExprIndex} {expr : Expr} {previous : Nat}
    (known : get? index expr = some previous) (number : Nat) :
    insert (insert index expr number) expr previous = index := by
  induction index with
  | nil => simp [get?] at known
  | cons entry tail tailIH =>
    obtain ⟨head, current⟩ := entry
    rw [get?] at known
    rw [insert]
    by_cases isHead : head = expr
    · rw [if_pos isHead] at known
      rw [if_pos isHead, insert, if_pos isHead, Option.some.inj known]
    · rw [if_neg isHead] at known
      rw [if_neg isHead, insert, if_neg isHead, tailIH known]

/-- Removing an expression that had no number. -/
theorem erase_insert {index : ExprIndex} {expr : Expr} (unknown : get? index expr = none)
    (number : Nat) : erase (insert index expr number) expr = index := by
  induction index with
  | nil => simp [insert, erase]
  | cons entry tail tailIH =>
    obtain ⟨head, current⟩ := entry
    rw [get?] at unknown
    rw [insert]
    by_cases isHead : head = expr
    · simp [isHead] at unknown
    · rw [if_neg isHead] at unknown
      rw [if_neg isHead, erase, if_neg isHead, tailIH unknown]

end ExprIndex

namespace SortedMap

variable {κ ν : Type} [Ord κ] [Std.LawfulEqOrd κ] [Std.TransOrd κ] [DecidableEq κ]
  {map : SortedMap κ ν} {key : κ}

/-- Setting a key back to the value that it had. -/
theorem insert_insert {previous : ν} (known : map.get? key = some previous) (value : ν) :
    (map.insert key value).insert key previous = map := by
  ext other : 1
  rw [get?_insert_eq, get?_insert_eq]
  split
  · rename_i same
    rw [same, known]
  · rfl

/-- Removing a key that had no value. -/
theorem erase_insert (unknown : map.get? key = none) (value : ν) :
    (map.insert key value).erase key = map := by
  ext other : 1
  rw [get?_erase_eq, get?_insert_eq]
  split
  · rename_i same
    rw [same, unknown]
  · rfl

end SortedMap

namespace ValueTable

variable {base table middle after : ValueTable}

/-- Taking back what was written to the journal when an expression got a number. -/
theorem undo_index (table : ValueTable) (expr : Expr) (number : Nat) :
    (table.index expr number).undo (.expr expr (ExprIndex.get? table.exprs expr)) =
      { table with journal := (table.index expr number).journal } := by
  cases known : ExprIndex.get? table.exprs expr with
  | none => simp only [undo, index, known, ExprIndex.erase_insert known]
  | some previous => simp only [undo, index, known, ExprIndex.insert_insert known]

/-- Taking back what was written to the journal when a variable got a number. -/
theorem undo_bind (table : ValueTable) (var : String) (number : Nat) :
    (table.bind var number).undo (.var var (table.vars.get? var)) =
      { table with journal := (table.bind var number).journal } := by
  cases known : table.vars.get? var with
  | none => simp only [undo, bind, known, SortedMap.erase_insert known]
  | some previous => simp only [undo, bind, known, SortedMap.insert_insert known]

/-- Changes of the maps are taken back in the same way whatever rows and journal there are. -/
theorem undoAll_with (table : ValueTable) (rows : List Row) (journal changes : List Undo) :
    ({ table with rows, journal } : ValueTable).undoAll changes =
      { table.undoAll changes with rows, journal } := by
  induction changes generalizing table with
  | nil => rfl
  | cons change rest restIH =>
    have first : ({ table with rows, journal } : ValueTable).undo change =
        { table.undo change with rows, journal } := by
      rcases change with ⟨_, _ | _⟩ | ⟨_, _ | _⟩ <;> rfl
    rw [undoAll, List.foldl_cons, first]
    exact restIH (table.undo change)

/-- A new value gets a row, its expression is mapped to the row, and then its literal may be. -/
theorem push_cases (table : ValueTable) (expr : Expr) (var : String) (constant : Option Literal) :
    let indexed := index { table with rows := table.rows ++ [⟨some expr, var, constant⟩] } expr
      table.size
    (table.push expr var constant).2 = indexed ∨
      ∃ literal, (table.push expr var constant).2 = indexed.index (.const literal) table.size := by
  unfold push
  cases constant with
  | none => exact .inl rfl
  | some literal =>
    dsimp only
    split
    · exact .inr ⟨literal, rfl⟩
    · exact .inl rfl

/-! ## Growth -/

/-- A table with more rows and a longer journal, in which the changes made since lead back. -/
structure GrownFrom (base table : ValueTable) : Prop where
  /-- Rows were added. -/
  rows : ∃ rows, table.rows = base.rows ++ rows
  /-- The changes written since lead back to the maps of the smaller table. -/
  changes : ∃ changes, table.journal = changes ++ base.journal ∧
    table.undoAll changes = { base with rows := table.rows, journal := table.journal }

namespace GrownFrom

/-- A table grew from itself. -/
theorem refl (table : ValueTable) : table.GrownFrom table :=
  ⟨⟨[], (List.append_nil _).symm⟩, [], rfl, rfl⟩

/-- Growth in two steps: the later changes are taken back first. -/
theorem trans (first : base.GrownFrom middle) (second : middle.GrownFrom after) :
    base.GrownFrom after := by
  obtain ⟨⟨early, isEarly⟩, changes, isJournal, undone⟩ := first
  obtain ⟨⟨late, isLate⟩, more, isLonger, undoneMore⟩ := second
  refine ⟨⟨early ++ late, by rw [isLate, isEarly, List.append_assoc]⟩, more ++ changes, ?_, ?_⟩
  · rw [isLonger, isJournal, List.append_assoc]
  · calc after.undoAll (more ++ changes)
        = (after.undoAll more).undoAll changes := List.foldl_append ..
      _ = { middle.undoAll changes with rows := after.rows, journal := after.journal } := by
          rw [undoneMore, undoAll_with]
      _ = { base with rows := after.rows, journal := after.journal } := by rw [undone]

/-- A rollback leads back to the table that a table grew from. -/
theorem rollback (grown : base.GrownFrom table) : table.rollback base.checkpoint = base := by
  obtain ⟨⟨rows, isRows⟩, changes, isJournal, undone⟩ := grown
  -- The rollback cuts the journal and the rows where those of the smaller table end.
  have excess : table.journal.length - base.journal.length = changes.length := by
    rw [isJournal, List.length_append]
    omega
  have taken : table.journal.take changes.length = changes := by rw [isJournal, List.take_left]
  have dropped : table.journal.drop changes.length = base.journal := by
    rw [isJournal, List.drop_left]
  have kept : table.rows.take base.rows.length = base.rows := by rw [isRows, List.take_left]
  simp only [ValueTable.rollback, checkpoint, excess, taken, dropped, kept, undone]

/-- A new row. -/
theorem addRow (table : ValueTable) (row : Row) :
    table.GrownFrom { table with rows := table.rows ++ [row] } :=
  ⟨⟨[row], rfl⟩, [], rfl, rfl⟩

/-- A number for an expression. -/
theorem index (table : ValueTable) (expr : Expr) (number : Nat) :
    table.GrownFrom (table.index expr number) :=
  ⟨⟨[], (List.append_nil _).symm⟩, [.expr expr (ExprIndex.get? table.exprs expr)], rfl,
    table.undo_index expr number⟩

/-- A number for a variable. -/
theorem bind (table : ValueTable) (var : String) (number : Nat) :
    table.GrownFrom (table.bind var number) :=
  ⟨⟨[], (List.append_nil _).symm⟩, [.var var (table.vars.get? var)], rfl,
    table.undo_bind var number⟩

/-- A value of which nothing is known. -/
theorem pushOpaque (table : ValueTable) (var : String) :
    table.GrownFrom (table.pushOpaque var).2 := addRow table _

/-- The value of an expression, which may be found by its literal too. -/
theorem push (table : ValueTable) (expr : Expr) (var : String) (constant : Option Literal) :
    table.GrownFrom (table.push expr var constant).2 := by
  have indexed := (addRow table ⟨some expr, var, constant⟩).trans (index _ expr table.size)
  rcases table.push_cases expr var constant with same | ⟨literal, same⟩
  · rw [same]
    exact indexed
  · rw [same]
    exact indexed.trans (index _ (.const literal) table.size)

/-- A number for a variable that had none. -/
theorem numberOrInput (table : ValueTable) (var : String) :
    table.GrownFrom (table.numberOrInput var).2 := by
  unfold ValueTable.numberOrInput
  split
  · exact refl table
  · exact (pushOpaque table var).trans (bind _ var _)

end GrownFrom

/-! ## Numbers of rows -/

/-- The maps lead to rows that exist. -/
structure Grounded (table : ValueTable) : Prop where
  /-- Variables have numbers of rows. -/
  var : ∀ var number, table.numberOf? var = some number → number < table.size
  /-- Expressions have numbers of rows. -/
  expr : ∀ expr number, ExprIndex.get? table.exprs expr = some number → number < table.size

namespace Grounded

/-- The maps of the table without values lead nowhere. -/
theorem empty : Grounded {} := ⟨by simp [numberOf?], by simp [ExprIndex.get?]⟩

/-- A new row. -/
theorem addRow (grounded : table.Grounded) (row : Row) :
    Grounded { table with rows := table.rows ++ [row] } := by
  have grows : table.size ≤ ({ table with rows := table.rows ++ [row] } : ValueTable).size := by
    simp [size]
  exact ⟨fun var number found => Nat.lt_of_lt_of_le (grounded.var var number found) grows,
    fun expr number found => Nat.lt_of_lt_of_le (grounded.expr expr number found) grows⟩

/-- An expression gets the number of a row. -/
theorem index (grounded : table.Grounded) (expr : Expr) {number : Nat}
    (below : number < table.size) : (table.index expr number).Grounded := by
  refine ⟨grounded.var, fun other found isFound => ?_⟩
  change ExprIndex.get? (ExprIndex.insert table.exprs expr number) other = some found at isFound
  rw [ExprIndex.get?_insert] at isFound
  split at isFound
  · obtain rfl := Option.some.inj isFound
    exact below
  · exact grounded.expr other found isFound

/-- A variable gets the number of a row. -/
theorem bind (grounded : table.Grounded) (var : String) {number : Nat}
    (below : number < table.size) : (table.bind var number).Grounded := by
  refine ⟨fun other found isFound => ?_, grounded.expr⟩
  rw [numberOf?_bind] at isFound
  split at isFound
  · obtain rfl := Option.some.inj isFound
    exact below
  · exact grounded.var other found isFound

/-- A new value has a row before anything leads to it. -/
theorem push (grounded : table.Grounded) (expr : Expr) (var : String)
    (constant : Option Literal) : (table.push expr var constant).2.Grounded := by
  have below : table.size <
      ({ table with rows := table.rows ++ [⟨some expr, var, constant⟩] } : ValueTable).size := by
    simp [size]
  have indexed := (grounded.addRow ⟨some expr, var, constant⟩).index expr below
  rcases table.push_cases expr var constant with same | ⟨literal, same⟩
  · rw [same]
    exact indexed
  · rw [same]
    exact indexed.index (.const literal) below

/-- A variable that had no number gets that of a new row. -/
theorem numberOrInput (grounded : table.Grounded) (var : String) :
    (table.numberOrInput var).2.Grounded := by
  unfold ValueTable.numberOrInput
  split
  · exact grounded
  · exact (grounded.addRow ⟨none, var, none⟩).bind var (by simp [size, pushOpaque])

end Grounded

/-! ## Changes, checkpoints and rollbacks -/

/-- What may be done to a table between checkpoints. -/
inductive Change where
  /-- Adds a value of which nothing is known. -/
  | pushOpaque (var : String)
  /-- Adds the value of an expression. -/
  | push (expr : Expr) (var : String) (constant : Option Literal)
  /-- Maps an expression to a number. -/
  | index (expr : Expr) (number : Nat)
  /-- Maps a variable to a number. -/
  | bind (var : String) (number : Nat)
  /-- Asks for the number of a variable. -/
  | numberOrInput (var : String)

namespace Change

/-- The table after a change. -/
def apply (table : ValueTable) : Change → ValueTable
  | .pushOpaque var => (table.pushOpaque var).2
  | .push expr var constant => (table.push expr var constant).2
  | .index expr number => table.index expr number
  | .bind var number => table.bind var number
  | .numberOrInput var => (table.numberOrInput var).2

/-- A change maps to a row that exists, if it maps to a given number. -/
def RefersTo (table : ValueTable) : Change → Prop
  | .index _ number | .bind _ number => number < table.size
  | _ => True

instance (table : ValueTable) : (change : Change) → Decidable (change.RefersTo table)
  | .index _ number | .bind _ number => inferInstanceAs (Decidable (number < table.size))
  | .pushOpaque _ | .push .. | .numberOrInput _ => .isTrue trivial

/-- Every change lets the table grow. -/
theorem grownFrom (change : Change) (table : ValueTable) :
    table.GrownFrom (change.apply table) := by
  cases change with
  | pushOpaque var => exact .pushOpaque table var
  | push expr var constant => exact .push table expr var constant
  | index expr number => exact .index table expr number
  | bind var number => exact .bind table var number
  | numberOrInput var => exact .numberOrInput table var

/-- A change that maps to rows that exist keeps the maps within them. -/
theorem grounded {change : Change} (grounded : table.Grounded) (refers : change.RefersTo table) :
    (change.apply table).Grounded := by
  cases change with
  | pushOpaque var => exact grounded.addRow _
  | push expr var constant => exact grounded.push expr var constant
  | index expr number => exact grounded.index expr refers
  | bind var number => exact grounded.bind var refers
  | numberOrInput var => exact grounded.numberOrInput var

end Change

/-- A change, or a step from one scope to another. -/
inductive Operation where
  /-- Changes the table. -/
  | edit (change : Change)
  /-- Takes a checkpoint. -/
  | checkpoint
  /-- Rolls back to an open checkpoint, counted from the latest one, and closes those inside it. -/
  | rollback (depth : Nat)

namespace Operation

/-- If an operation is a change, the change satisfies something. -/
def Satisfies (allowed : Change → Prop) : Operation → Prop
  | .edit change => allowed change
  | .checkpoint | .rollback _ => True

instance {allowed : Change → Prop} [∀ change, Decidable (allowed change)] :
    (operation : Operation) → Decidable (operation.Satisfies allowed)
  | .edit change => inferInstanceAs (Decidable (allowed change))
  | .checkpoint | .rollback _ => .isTrue trivial

/-- An operation satisfies what follows from what it satisfies. -/
theorem Satisfies.imp {operation : Operation} {allowed others : Change → Prop}
    (satisfied : operation.Satisfies allowed) (weaker : ∀ change, allowed change → others change) :
    operation.Satisfies others := by
  cases operation with
  | edit change => exact weaker change satisfied
  | checkpoint | rollback _ => trivial

end Operation

/-- A table with the checkpoints that are open, the latest one first. -/
structure Scoped where
  /-- The table. -/
  table : ValueTable
  /-- The open checkpoints. -/
  marks : List Checkpoint

namespace Scoped

variable {state next : Scoped} {operation : Operation} {operations : List Operation}
  {property : ValueTable → Prop} {allowed : ValueTable → Change → Prop}

/-- What an operation does. A rollback needs a checkpoint that is open. -/
def step (state : Scoped) : Operation → Option Scoped
  | .edit change => some { state with table := change.apply state.table }
  | .checkpoint => some { state with marks := state.table.checkpoint :: state.marks }
  | .rollback depth => state.marks[depth]?.map fun mark =>
      ⟨state.table.rollback mark, state.marks.drop depth⟩

/-- What several operations do. -/
def run (state : Scoped) : List Operation → Option Scoped
  | [] => some state
  | operation :: rest => (state.step operation).bind fun next => next.run rest

/-- All changes that a run makes are allowed for the tables that it makes them to. -/
def Makes (allowed : ValueTable → Change → Prop) (state : Scoped) : List Operation → Prop
  | [] => True
  | operation :: rest => operation.Satisfies (allowed state.table) ∧
      ∀ next ∈ state.step operation, next.Makes allowed rest

instance decidableMakes [∀ table change, Decidable (allowed table change)] :
    ∀ (state : Scoped) (operations : List Operation), Decidable (state.Makes allowed operations)
  | _, [] => .isTrue trivial
  | state, operation :: rest =>
    have : ∀ next : Scoped, Decidable (next.Makes allowed rest) :=
      fun next => decidableMakes next rest
    inferInstanceAs (Decidable (operation.Satisfies (allowed state.table) ∧
      ∀ next ∈ state.step operation, next.Makes allowed rest))

/-- A run makes only changes that are allowed if all are. -/
theorem makes_of_forall (all : ∀ table change, allowed table change) :
    state.Makes allowed operations := by
  induction operations generalizing state with
  | nil => trivial
  | cons operation rest restIH =>
    refine ⟨?_, fun _ _ => restIH⟩
    cases operation with
    | edit change => exact all state.table change
    | checkpoint | rollback _ => trivial

end Scoped

/-! ## Open scopes -/

/-- Every open checkpoint is that of a table with a property. The first of these tables is given, and
each of the others and the present one grew from the one before. -/
inductive Opened (property : ValueTable → Prop) (base : ValueTable) :
    ValueTable → List Checkpoint → Prop
  /-- Only the first checkpoint is open. -/
  | base {table : ValueTable} (grown : base.GrownFrom table) :
    Opened property base table [base.checkpoint]
  /-- A checkpoint was taken inside of others. -/
  | inside {opened table : ValueTable} {marks : List Checkpoint}
    (outer : Opened property base opened marks) (isHeld : property opened)
    (grown : opened.GrownFrom table) : Opened property base table (opened.checkpoint :: marks)

namespace Opened

variable {property : ValueTable → Prop} {marks : List Checkpoint}

/-- A table may grow further. -/
theorem grow (opened : Opened property base table marks) (grown : table.GrownFrom after) :
    Opened property base after marks := by
  cases opened with
  | base first => exact .base (first.trans grown)
  | inside outer isHeld first => exact .inside outer isHeld (first.trans grown)

/-- The present table grew from the first one. -/
theorem grownFrom (opened : Opened property base table marks) : base.GrownFrom table := by
  induction opened with
  | base grown => exact grown
  | inside _ _ grown outerIH => exact outerIH.trans grown

/-- A rollback to an open checkpoint leads to the table of that checkpoint. -/
theorem rollback (opened : Opened property base table marks) (isHeld : property base) {depth : Nat}
    {mark : Checkpoint} (found : marks[depth]? = some mark) :
    property (table.rollback mark) ∧ Opened property base (table.rollback mark) (marks.drop depth) := by
  induction depth generalizing marks with
  | zero =>
    cases opened with
    | base grown =>
      obtain rfl := Option.some.inj found
      rw [grown.rollback]
      exact ⟨isHeld, .base (.refl base)⟩
    | inside outer innerHeld grown =>
      obtain rfl := Option.some.inj found
      rw [grown.rollback]
      exact ⟨innerHeld, .inside outer innerHeld (.refl _)⟩
  | succ depth depthIH =>
    cases opened with
    | base grown => simp at found
    -- The scope inside is forgotten: the table grew from the one outside of it too.
    | inside outer _ grown => exact depthIH (outer.grow grown) found

end Opened

namespace Scoped

variable {state next : Scoped} {operation : Operation} {operations : List Operation}
  {property : ValueTable → Prop} {allowed : ValueTable → Change → Prop}

/-- An operation keeps the open scopes and a property that the changes keep. -/
theorem opened_step (isHeld : property base) (held : property state.table)
    (opened : Opened property base state.table state.marks)
    (changed : operation.Satisfies fun change => property (change.apply state.table))
    (stepped : state.step operation = some next) :
    property next.table ∧ Opened property base next.table next.marks := by
  cases operation with
  | edit change =>
    cases stepped
    exact ⟨changed, opened.grow (change.grownFrom _)⟩
  | checkpoint =>
    cases stepped
    exact ⟨held, .inside opened held (.refl _)⟩
  | rollback depth =>
    -- Its table was found to have the property when the checkpoint was taken.
    obtain ⟨mark, found, rfl⟩ := Option.map_eq_some_iff.1 stepped
    exact opened.rollback isHeld found

/-- A run keeps the open scopes and a property that allowed changes keep. -/
theorem opened_run (kept : ∀ table change, property table → allowed table change →
      property (change.apply table)) (isHeld : property base) (held : property state.table)
    (opened : Opened property base state.table state.marks)
    (makes : state.Makes allowed operations) (ran : state.run operations = some next) :
    property next.table ∧ Opened property base next.table next.marks := by
  -- Induction on the operations; the open scopes and the property are what each of them keeps.
  induction operations generalizing state with
  | nil =>
    cases ran
    exact ⟨held, opened⟩
  | cons operation rest restIH =>
    obtain ⟨middle, stepped, ranRest⟩ := Option.bind_eq_some_iff.1 ran
    have changed : operation.Satisfies fun change => property (change.apply state.table) :=
      makes.1.imp fun change allows => kept state.table change held allows
    obtain ⟨heldMiddle, openedMiddle⟩ := opened_step isHeld held opened changed stepped
    exact restIH heldMiddle openedMiddle (makes.2 middle stepped) ranRest

end Scoped

/-- Whatever is done to a table after a checkpoint was taken, a rollback to the checkpoint gives the
table back. If the maps lead to rows that exist and changes map to such rows only, then the maps never
lead to a row that was dropped. -/
theorem rollback_restores {operations : List Operation} {state : Scoped}
    (ran : Scoped.run ⟨table, [table.checkpoint]⟩ operations = some state) :
    state.table.rollback table.checkpoint = table ∧
      (table.Grounded → Scoped.Makes (fun table change => change.RefersTo table)
        ⟨table, [table.checkpoint]⟩ operations → state.table.Grounded) := by
  constructor
  · -- Nothing is asked of the tables of the open checkpoints.
    have every : Scoped.Makes (fun _ _ => True) ⟨table, [table.checkpoint]⟩ operations :=
      Scoped.makes_of_forall fun _ _ => trivial
    have opened : Opened (fun _ => True) table state.table state.marks :=
      (Scoped.opened_run (fun _ _ _ _ => trivial) trivial trivial (.base (.refl table)) every ran).2
    exact opened.grownFrom.rollback
  · intro grounded refers
    have kept : ∀ table change, Grounded table → Change.RefersTo table change →
        (change.apply table).Grounded := fun _ _ => Change.grounded
    exact (Scoped.opened_run kept grounded grounded (.base (.refl table)) refers ran).1

/-- A table with one variable. -/
def oneInput : ValueTable := ({} : ValueTable).define "input"

/-- Changes in two scopes, after which the inner one is left: in both the variable is written again,
and a sum gets another number. -/
def writesInScopes : List Operation :=
  [.edit (.push (.op .add [0, 0]) "sum" none), .edit (.bind "sum" 1), .edit (.bind "input" 1),
    .checkpoint, .edit (.push (.const (.int 7)) "seven" (some (.int 7))),
    .edit (.index (.op .add [0, 0]) 2), .edit (.bind "input" 2),
    .checkpoint, .edit (.numberOrInput "other"), .rollback 1, .edit (.bind "seven" 0)]

/-- These changes are taken back, and before they are, nothing leads to the rows that the inner scope
added. -/
theorem rollback_restores_writesInScopes : ∃ state,
    Scoped.run ⟨oneInput, [oneInput.checkpoint]⟩ writesInScopes = some state ∧
      state.table ≠ oneInput ∧ state.table.rollback oneInput.checkpoint = oneInput ∧
        state.table.Grounded := by
  obtain ⟨state, ran, changed⟩ : ∃ state,
      Scoped.run ⟨oneInput, [oneInput.checkpoint]⟩ writesInScopes = some state ∧
        state.table ≠ oneInput := ⟨_, rfl, by decide⟩
  have grounded : oneInput.Grounded := (Grounded.empty.addRow _).bind "input" (by decide)
  obtain ⟨restored, stays⟩ := rollback_restores ran
  exact ⟨state, ran, changed, restored, stays grounded (by decide)⟩

end ValueTable

end Midend
