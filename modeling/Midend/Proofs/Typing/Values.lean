import Midend.Proofs.Typing.Discipline
import Midend.Proofs.Values.Visits

/-! # Disciplines and value tables

The kind of a value is that of the variable that first held it. A table conforms to a discipline when
variables have the kinds of their values, known constants and expressions too
(`ValueTable.Conforms`). What an instruction is replaced by when it is numbered then conforms if the
instruction does (`Numbering.conforms_numberInstr`): a constant that takes its place has the kind of
the variable that it is written to. -/

namespace Midend

variable {discipline : Discipline} {kinds later : Kinds}

/-! ## Folding -/

/-- A folded operation gives an integer or a truth value, of the type of its results. -/
theorem fold_spec (discipline : Discipline) {op : Opcode} {args : List (Option Literal)} {same : Bool}
    {literal : Literal} (folded : fold op args same = some literal) :
    discipline.literals literal ∧ op.result? = some literal.ty := by
  -- Conjunctions and disjunctions are folded alike.
  have logic : ∀ {absorbing : Bool}, foldLogic absorbing args = some literal →
      ∃ value, literal = .bool value := by
    intro absorbing folded
    unfold foldLogic at folded
    dsimp only at folded
    split at folded
    · exact ⟨_, (Option.some.inj folded).symm⟩
    · split at folded
      · exact ⟨_, (Option.some.inj folded).symm⟩
      · cases folded
  unfold fold at folded
  split at folded
  · split at folded
    · cases folded
      exact ⟨discipline.bool _, rfl⟩
    · cases folded
  · obtain ⟨value, rfl⟩ := logic folded
    exact ⟨discipline.bool _, rfl⟩
  · obtain ⟨value, rfl⟩ := logic folded
    exact ⟨discipline.bool _, rfl⟩
  · split at folded
    · rename_i compares
      cases folded
      refine ⟨discipline.bool _, ?_⟩
      unfold reflexive? at compares
      split at compares <;> first | rfl | cases compares
    · split at folded
      · rename_i compares
        have isResult : op.result? = some .bool := by
          rcases compares with rfl | rfl <;> rfl
        split at folded
        · split at folded
          · cases folded
            exact ⟨discipline.bool _, isResult⟩
          · cases folded
        · cases folded
      · split at folded
        · unfold foldInts at folded
          split at folded
          -- A division is the one folded operation that may give nothing.
          case h_4 =>
            split at folded
            · cases folded
            · cases folded
              exact ⟨discipline.int _, rfl⟩
          all_goals first
            | cases folded; exact ⟨discipline.int _, rfl⟩
            | cases folded; exact ⟨discipline.bool _, rfl⟩
            | cases folded
        · cases folded

/-! ## Tables -/

namespace ValueTable

variable {table after : ValueTable}

/-- The kind of a value: that of the variable that first held it. -/
def kindOf? (kinds : Kinds) (table : ValueTable) (number : Nat) : Option Ty :=
  (table.row? number).bind fun row => kinds row.var

/-- An expression has values of a kind. -/
def Explains (discipline : Discipline) (kindOf : Nat → Option Ty) : Expr → Ty → Prop
  | .const literal, kind => kind = discipline.kind literal.ty
  | .op op args, kind =>
    (∀ result, op.result? = some result → kind = discipline.kind result) ∧
      ∀ arg ∈ op.carried args, kindOf arg = some kind
  | .phi _ incoming, kind => ∀ pair ∈ incoming, kindOf pair.2 = some kind

/-- A table whose variables, constants and expressions have the kinds of their values. -/
structure Conforms (discipline : Discipline) (kinds : Kinds) (table : ValueTable) : Prop where
  /-- Variables have the kinds of their values. -/
  var : ∀ var number, table.numberOf? var = some number →
    (kinds var).isSome = true ∧ table.kindOf? kinds number = kinds var
  /-- Known constants may stand in code, and have the kinds of their values. -/
  constant : ∀ number literal, table.constant? number = some literal →
    discipline.literals literal ∧ table.kindOf? kinds number = some (discipline.kind literal.ty)
  /-- Expressions have the kinds of their values. -/
  expr : ∀ expr number, table.exprs.get? expr = some number → ∃ kind,
    table.kindOf? kinds number = some kind ∧ Explains discipline (table.kindOf? kinds) expr kind

/-- Values keep their kinds in a later table. -/
def Keeps (kinds : Kinds) (table after : ValueTable) : Prop :=
  ∀ number kind, table.kindOf? kinds number = some kind → after.kindOf? kinds number = some kind

/-- Values keep their kinds when nothing is done to them. -/
theorem Keeps.refl (kinds : Kinds) (table : ValueTable) : Keeps kinds table table :=
  fun _ _ => id

/-- Values keep their kinds in two steps. -/
theorem Keeps.trans {middle : ValueTable} (first : Keeps kinds table middle)
    (second : Keeps kinds middle after) : Keeps kinds table after :=
  fun number kind known => second number kind (first number kind known)

/-- The kinds of values may be kept by more than a table. -/
theorem Explains.mono {kindOf other : Nat → Option Ty} {expr : Expr} {kind : Ty}
    (explains : Explains discipline kindOf expr kind)
    (keeps : ∀ number kind, kindOf number = some kind → other number = some kind) :
    Explains discipline other expr kind := by
  cases expr with
  | const literal => exact explains
  | op op args => exact ⟨explains.1, fun arg member => keeps arg kind (explains.2 arg member)⟩
  | phi block incoming => exact fun pair member => keeps pair.2 kind (explains pair member)

/-- The variable that stands for a number has the kind of its value. -/
theorem kind_of_canonical? {number : Nat} {var : String}
    (found : table.canonical? number = some var) : kinds var = table.kindOf? kinds number := by
  obtain ⟨_, row, isRow, rfl⟩ := numberOf?_of_canonical? found
  rw [kindOf?, isRow]
  rfl

namespace Conforms

/-- The table without values conforms. -/
theorem empty : ({} : ValueTable).Conforms discipline kinds :=
  ⟨by simp [numberOf?], by simp [constant?, row?], by simp [ExprIndex.get?]⟩

/-- The kind of a value with more kinds around. -/
theorem kindOf?_mono (grows : kinds.Grows later) {number : Nat} {kind : Ty}
    (known : table.kindOf? kinds number = some kind) : table.kindOf? later number = some kind := by
  obtain ⟨row, isRow, isKind⟩ := Option.bind_eq_some_iff.1 known
  exact Option.bind_eq_some_iff.2 ⟨row, isRow, grows _ _ isKind⟩

/-- Kinds may be added. -/
theorem mono (conforms : table.Conforms discipline kinds) (grows : kinds.Grows later) :
    table.Conforms discipline later := by
  refine ⟨fun var number found => ?_, fun number literal known => ?_, fun expr number found => ?_⟩
  · obtain ⟨known, same⟩ := conforms.var var number found
    obtain ⟨kind, isKind⟩ := Option.isSome_iff_exists.1 known
    rw [grows var kind isKind]
    exact ⟨rfl, kindOf?_mono grows (same.trans isKind)⟩
  · obtain ⟨allowed, isKind⟩ := conforms.constant number literal known
    exact ⟨allowed, kindOf?_mono grows isKind⟩
  · obtain ⟨kind, isKind, explains⟩ := conforms.expr expr number found
    exact ⟨kind, kindOf?_mono grows isKind, explains.mono fun _ _ => kindOf?_mono grows⟩

/-- A variable gets a number whose value has its kind. -/
theorem bind (conforms : table.Conforms discipline kinds) {var : String} {number : Nat} {kind : Ty}
    (isKind : kinds var = some kind) (sameKind : table.kindOf? kinds number = some kind) :
    (table.bind var number).Conforms discipline kinds := by
  refine ⟨fun name found isFound => ?_, conforms.constant, conforms.expr⟩
  rw [numberOf?_bind] at isFound
  split at isFound
  · rename_i isVar
    obtain rfl := Option.some.inj isFound
    rw [isVar, isKind]
    exact ⟨rfl, sameKind⟩
  · exact conforms.var name found isFound

/-- An expression gets a number whose value has its kind. -/
theorem index (conforms : table.Conforms discipline kinds) {expr : Expr} {number : Nat} {kind : Ty}
    (isKind : table.kindOf? kinds number = some kind)
    (explains : Explains discipline (table.kindOf? kinds) expr kind) :
    (table.index expr number).Conforms discipline kinds := by
  refine ⟨conforms.var, conforms.constant, fun other found isFound => ?_⟩
  change (ExprIndex.insert table.exprs expr number).get? other = some found at isFound
  rw [ExprIndex.get?_insert] at isFound
  split at isFound
  · rename_i same
    obtain rfl := Option.some.inj isFound
    exact ⟨kind, isKind, same ▸ explains⟩
  · exact conforms.expr other found isFound

/-- A new row gets the next number. -/
theorem addRow (conforms : table.Conforms discipline kinds) (row : Row)
    (constants : ∀ literal, row.constant = some literal →
      discipline.literals literal ∧ kinds row.var = some (discipline.kind literal.ty)) :
    Conforms discipline kinds { table with rows := table.rows ++ [row] } ∧
      Keeps kinds table { table with rows := table.rows ++ [row] } ∧
      kindOf? kinds { table with rows := table.rows ++ [row] } table.size = kinds row.var := by
  have keeps : Keeps kinds table { table with rows := table.rows ++ [row] } := by
    intro number kind known
    obtain ⟨old, isOld, isKind⟩ := Option.bind_eq_some_iff.1 known
    refine Option.bind_eq_some_iff.2 ⟨old, ?_, isKind⟩
    have below : number < table.rows.length := (List.getElem?_eq_some_iff.1 isOld).1
    rw [row?, List.getElem?_append_left below]
    exact isOld
  have atEnd : kindOf? kinds { table with rows := table.rows ++ [row] } table.size =
      kinds row.var := by
    rw [kindOf?, row?, size, List.getElem?_append_right (Nat.le_refl _), Nat.sub_self]
    rfl
  refine ⟨⟨fun var number found => ?_, fun number literal known => ?_, fun expr number found => ?_⟩,
    keeps, atEnd⟩
  · obtain ⟨known, same⟩ := conforms.var var number found
    obtain ⟨kind, isKind⟩ := Option.isSome_iff_exists.1 known
    exact ⟨known, (keeps number kind (same.trans isKind)).trans isKind.symm⟩
  · obtain ⟨other, isOther, isLiteral⟩ := Option.bind_eq_some_iff.1 known
    rw [row?] at isOther
    -- An old number keeps its row; the only other number is that of the new one.
    by_cases below : number < table.rows.length
    · rw [List.getElem?_append_left below] at isOther
      obtain ⟨allowed, isKind⟩ := conforms.constant number literal
        (Option.bind_eq_some_iff.2 ⟨other, isOther, isLiteral⟩)
      exact ⟨allowed, keeps number _ isKind⟩
    · have inside := (List.getElem?_eq_some_iff.1 isOther).1
      rw [List.length_append, List.length_singleton] at inside
      obtain rfl : number = table.rows.length := by omega
      rw [List.getElem?_append_right (Nat.le_refl _), Nat.sub_self] at isOther
      obtain rfl := Option.some.inj isOther
      obtain ⟨allowed, isKind⟩ := constants literal isLiteral
      exact ⟨allowed, atEnd.trans isKind⟩
  · obtain ⟨kind, isKind, explains⟩ := conforms.expr expr number found
    exact ⟨kind, keeps number kind isKind, explains.mono keeps⟩

/-- A value of which nothing is known gets the next number. -/
theorem pushOpaque (conforms : table.Conforms discipline kinds) (var : String) :
    (table.pushOpaque var).2.Conforms discipline kinds ∧
      Keeps kinds table (table.pushOpaque var).2 ∧
      (table.pushOpaque var).2.kindOf? kinds (table.pushOpaque var).1 = kinds var :=
  conforms.addRow ⟨none, var, none⟩ nofun

/-- A variable gets a new number. -/
theorem define (conforms : table.Conforms discipline kinds) {var : String}
    (known : (kinds var).isSome = true) :
    (table.define var).Conforms discipline kinds ∧ Keeps kinds table (table.define var) ∧
      (table.define var).kindOf? kinds table.size = kinds var := by
  obtain ⟨kind, isKind⟩ := Option.isSome_iff_exists.1 known
  obtain ⟨added, keeps, atEnd⟩ := conforms.pushOpaque var
  exact ⟨added.bind isKind (atEnd.trans isKind), keeps, atEnd⟩

/-- Several variables get new numbers. -/
theorem foldl_define (conforms : table.Conforms discipline kinds) {vars : List String}
    (known : ∀ var ∈ vars, (kinds var).isSome = true) :
    (vars.foldl ValueTable.define table).Conforms discipline kinds := by
  induction vars generalizing table with
  | nil => exact conforms
  | cons var rest restIH =>
    rw [List.forall_mem_cons] at known
    exact restIH (conforms.define known.1).1 known.2

/-- The value of an expression gets the next number. -/
theorem push (conforms : table.Conforms discipline kinds) (expr : Expr)
    (constant : Option Literal) {var : String} {kind : Ty} (isKind : kinds var = some kind)
    (explains : Explains discipline (table.kindOf? kinds) expr kind)
    (constants : ∀ literal, constant = some literal →
      discipline.literals literal ∧ kind = discipline.kind literal.ty) :
    (table.push expr var constant).2.Conforms discipline kinds ∧
      (table.push expr var constant).2.kindOf? kinds (table.push expr var constant).1 =
        some kind := by
  obtain ⟨added, keeps, atEnd⟩ := conforms.addRow ⟨some expr, var, constant⟩ fun literal isConst =>
    ⟨(constants literal isConst).1, isKind.trans (congrArg some (constants literal isConst).2)⟩
  have atEnd := atEnd.trans isKind
  have indexed := added.index atEnd (explains.mono keeps)
  unfold ValueTable.push
  cases constant with
  | none => exact ⟨indexed, atEnd⟩
  | some literal =>
    dsimp only
    split
    · exact ⟨indexed.index atEnd (constants literal rfl).2, atEnd⟩
    · exact ⟨indexed, atEnd⟩

/-- A variable has a number, or gets one. -/
theorem numberOrInput (conforms : table.Conforms discipline kinds) {var : String}
    (known : (kinds var).isSome = true) :
    (table.numberOrInput var).2.Conforms discipline kinds ∧
      Keeps kinds table (table.numberOrInput var).2 ∧
      (table.numberOrInput var).2.kindOf? kinds (table.numberOrInput var).1 = kinds var := by
  rcases table.numberOrInput_cases var with ⟨number, found, same⟩ | ⟨_, isNew⟩
  · rw [same]
    exact ⟨conforms, .refl _ _, (conforms.var var number found).2⟩
  · rw [isNew]
    exact conforms.define known

/-- An expression that is found has values of the kind of its number. -/
theorem of_lookup? (conforms : table.Conforms discipline kinds) {expr : Expr} {number : Nat}
    (found : table.lookup? expr = some number) : ∃ kind, table.kindOf? kinds number = some kind ∧
      Explains discipline (table.kindOf? kinds) expr kind :=
  conforms.expr expr number (get?_of_lookup? found).1

end Conforms

end ValueTable

/-! ## Numbering -/

namespace Numbering

open ValueTable (Explains Keeps)

variable {table : ValueTable}

/-- Canonical variables have the kinds of the arguments that they stand for. -/
theorem conforms_canonicalizeArgs (place : Place) {args : List String}
    (conforms : table.Conforms discipline kinds)
    (known : ∀ arg ∈ args, (kinds arg).isSome = true) :
    (canonicalizeArgs place args table).2.1.Conforms discipline kinds ∧
      List.Forall₂ (fun old new => kinds new = kinds old) args
        (canonicalizeArgs place args table).1 := by
  induction args generalizing table with
  | nil => exact ⟨conforms, .nil⟩
  | cons arg rest restIH =>
    rw [List.forall_mem_cons] at known
    obtain ⟨next, _, isKind⟩ := conforms.numberOrInput known.1
    obtain ⟨last, others⟩ := restIH next known.2
    refine ⟨last, .cons ?_ others⟩
    show kinds (((table.numberOrInput arg).2.canonical? (table.numberOrInput arg).1).getD arg) =
      kinds arg
    cases found : (table.numberOrInput arg).2.canonical? (table.numberOrInput arg).1 with
    | none => rfl
    | some canonical => exact (ValueTable.kind_of_canonical? found).trans isKind

/-- The values of arguments have their kinds. -/
theorem conforms_numbersOf {args : List String} (conforms : table.Conforms discipline kinds)
    (known : ∀ arg ∈ args, (kinds arg).isSome = true) :
    (numbersOf args table).2.Conforms discipline kinds ∧ Keeps kinds table (numbersOf args table).2 ∧
      List.Forall₂ (fun arg number => (numbersOf args table).2.kindOf? kinds number = kinds arg)
        args (numbersOf args table).1 := by
  induction args generalizing table with
  | nil => exact ⟨conforms, .refl _ _, .nil⟩
  | cons arg rest restIH =>
    rw [List.forall_mem_cons] at known
    obtain ⟨next, keeps, isKind⟩ := conforms.numberOrInput known.1
    obtain ⟨last, later, others⟩ := restIH next known.2
    obtain ⟨kind, atArg⟩ := Option.isSome_iff_exists.1 known.1
    exact ⟨last, keeps.trans later, .cons ((later _ kind (isKind.trans atArg)).trans atArg.symm) others⟩

/-- What an instruction became conforms, and its number has a value of the declared type. -/
structure Numbered.Conforms (discipline : Discipline) (kinds : Kinds) (ty : Ty)
    (numbered : Numbered) : Prop where
  /-- The action may stand in code. -/
  action : numbered.action.Conforms discipline kinds
  /-- The table conforms. -/
  table : numbered.table.Conforms discipline kinds
  /-- The number has a value of the declared type. -/
  kind : numbered.table.kindOf? kinds numbered.number = some (discipline.kind ty)

/-- A value of an operation has the kind of the declared type wherever its expression is found. -/
theorem eq_kind_of_explains {op : Opcode} {ty : Ty} {operands : Operands} {numbers : List Nat}
    {kindOf : Nat → Option Ty} {kind : Ty} (yields : op.Yields discipline kinds ty operands)
    (isPure : op.isPure = true) (defined : op ≠ .undef) (notConst : op ≠ .const)
    (numbered : List.Forall₂ (fun arg number => kindOf number = kinds arg) operands.args numbers)
    (explains : Explains discipline kindOf (Expr.ofOp op numbers) kind) :
    kind = discipline.kind ty := by
  cases isResult : op.result? with
  | some result =>
    exact (explains.1 result isResult).trans (yields.result result isResult).symm
  | none =>
    -- The first argument decides, and it stays the first one.
    have carries := Opcode.carries_of_isPure isPure defined notConst isResult
    have ordered : op.isCommutative = false := by
      cases op <;> first | rfl | contradiction
    have args_ne := yields.args_ne carries
    have carried := yields.carried
    rw [Expr.ofOp, ordered] at explains
    generalize operands.args = args at numbered args_ne carried
    cases numbered with
    | nil => exact absurd rfl args_ne
    | @cons first number rest others isKind _ =>
      have atFirst := carried first (Opcode.mem_carried carries first rest)
      have atNumber := explains.2 number (Opcode.mem_carried carries number others)
      exact Option.some.inj (atNumber.symm.trans (isKind.trans atFirst))

section Writes

variable {dest : String} {ty : Ty}

/-- A constant conforms and has the kind of a value of its own or of an equal one. -/
theorem conforms_numberConst (conforms : table.Conforms discipline kinds) {literal : Literal}
    (does : (Action.const dest ty literal).Conforms discipline kinds) :
    (numberConst table (.const dest ty literal) dest literal).Conforms discipline kinds ty := by
  cases does with
  | const allowed isKind isLiteral agrees =>
    have acts := Action.Conforms.const allowed isKind isLiteral agrees
    unfold numberConst
    split
    · rename_i number found
      obtain ⟨kind, atNumber, explains⟩ := conforms.of_lookup? found
      exact ⟨acts, conforms, atNumber.trans (congrArg some (explains.trans agrees))⟩
    · obtain ⟨added, atEnd⟩ := conforms.push (.const literal) (some literal)
        isKind agrees.symm fun other isOther => Option.some.inj isOther ▸ ⟨isLiteral, agrees.symm⟩
      exact ⟨acts, added, atEnd⟩

/-- A constant that is known of a value of the declared type takes the place of an instruction. -/
theorem conforms_becomeConst (conforms : table.Conforms discipline kinds) (place : Place)
    (allowed : discipline.types ty) (isKind : kinds dest = some (discipline.kind ty)) {number : Nat}
    (atNumber : table.kindOf? kinds number = some (discipline.kind ty)) {literal : Literal}
    (known : table.constant? number = some literal) :
    (becomeConst place dest ty literal).1.Conforms discipline kinds := by
  obtain ⟨isLiteral, atConstant⟩ := conforms.constant number literal known
  exact .const allowed isKind isLiteral (Option.some.inj (atConstant.symm.trans atNumber))

/-- A copy conforms, also as a constant. -/
theorem conforms_numberCopy (conforms : table.Conforms discipline kinds) (place : Place)
    {action : Action} {source : String} (does : action.Conforms discipline kinds)
    (allowed : discipline.types ty) (isKind : kinds dest = some (discipline.kind ty))
    (isSource : kinds source = some (discipline.kind ty)) :
    (numberCopy place table action dest ty source).Conforms discipline kinds ty := by
  obtain ⟨next, _, sameKind⟩ := conforms.numberOrInput
    (show (kinds source).isSome = true by rw [isSource]; rfl)
  have atNumber := sameKind.trans isSource
  unfold numberCopy
  dsimp only
  split
  · rename_i literal known
    exact ⟨conforms_becomeConst next place allowed isKind atNumber known, next, atNumber⟩
  · exact ⟨does, next, atNumber⟩

/-- A new expression conforms, also when it is folded. -/
theorem conforms_numberNew (conforms : table.Conforms discipline kinds) (place : Place)
    {action : Action} {op : Opcode} {numbers : List Nat} {expr : Expr}
    (does : action.Conforms discipline kinds) (allowed : discipline.types ty)
    (isKind : kinds dest = some (discipline.kind ty))
    (result : ∀ result, op.result? = some result → discipline.kind ty = discipline.kind result)
    (explains : Explains discipline (table.kindOf? kinds) expr (discipline.kind ty)) :
    (numberNew place table action dest ty op numbers expr).Conforms discipline kinds ty := by
  unfold numberNew
  dsimp only
  split
  · rename_i literal folded
    obtain ⟨isLiteral, isResult⟩ := fold_spec discipline folded
    have agrees := result literal.ty isResult
    have acts : (becomeConst place dest ty literal).1.Conforms discipline kinds :=
      .const allowed isKind isLiteral agrees.symm
    split
    · rename_i number found
      obtain ⟨kind, atNumber, isConst⟩ := conforms.of_lookup? found
      obtain rfl : kind = discipline.kind ty := isConst.trans agrees.symm
      exact ⟨acts, conforms.index atNumber explains, atNumber⟩
    · obtain ⟨added, atEnd⟩ := conforms.push _ (some literal) isKind explains
        fun other isOther => Option.some.inj isOther ▸ ⟨isLiteral, agrees⟩
      exact ⟨acts, added, atEnd⟩
  · obtain ⟨added, atEnd⟩ := conforms.push _ none isKind explains nofun
    exact ⟨does, added, atEnd⟩

/-- An operation on values has values of the declared type. -/
theorem explains_ofOp {kindOf : Nat → Option Ty} {op : Opcode} {operands : Operands}
    {numbers : List Nat} (yields : op.Yields discipline kinds ty operands)
    (numbered : List.Forall₂ (fun arg number => kindOf number = kinds arg) operands.args numbers) :
    Explains discipline kindOf (Expr.ofOp op numbers) (discipline.kind ty) := by
  refine ⟨yields.result, fun number member => ?_⟩
  have inOrder : number ∈ op.carried numbers := by
    cases commutes : op.isCommutative with
    | false => rwa [commutes] at member
    | true =>
      rw [Opcode.carried_of_isCommutative commutes] at member
      cases member
  obtain ⟨arg, isArg, sameKind⟩ := exists_of_forall₂_right (op.forall₂_carried numbered) inOrder
  exact sameKind.trans (yields.carried arg isArg)

/-- An operation without side effects conforms, also as a constant or a copy. -/
theorem conforms_numberPure (conforms : table.Conforms discipline kinds) (place : Place)
    {op : Opcode} {operands : Operands}
    (does : (Action.compute op dest ty operands).Conforms discipline kinds) (isPure : op.isPure = true)
    (defined : op ≠ .undef) :
    (numberPure place table (.compute op dest ty operands) dest ty op operands.args).Conforms
      discipline kinds ty := by
  cases does with
  | compute notConst allowed isKind conform yields =>
    have acts := Action.Conforms.compute notConst allowed isKind conform yields
    obtain ⟨next, _, numbered⟩ := conforms_numbersOf conforms conform.args
    unfold numberPure
    dsimp only
    split
    · exact conforms_numberNew next place acts allowed isKind yields.result
        (explains_ofOp yields numbered)
    · rename_i number found
      obtain ⟨kind, atNumber, explains⟩ := next.of_lookup? found
      obtain rfl := eq_kind_of_explains yields isPure defined notConst numbered explains
      split
      · rename_i literal _ known
        exact ⟨conforms_becomeConst next place allowed isKind atNumber known, next, atNumber⟩
      · rename_i canonical _ isCanonical
        exact ⟨.copy allowed isKind ((ValueTable.kind_of_canonical? isCanonical).trans atNumber), next,
          atNumber⟩
      · exact ⟨acts, next, atNumber⟩

/-- An instruction that writes a variable conforms to the end. -/
theorem conforms_numberWrite (conforms : table.Conforms discipline kinds) (place : Place)
    {action : Action} (does : action.Conforms discipline kinds) (isDest : action.dest? = some dest)
    (isTy : action.ty? = some ty) :
    (numberWrite place table action dest ty).Conforms discipline kinds ty := by
  obtain ⟨allowed, isKind⟩ := does.written isDest isTy
  obtain ⟨added, _, atEnd⟩ := conforms.pushOpaque dest
  have unknown : (⟨action, (table.pushOpaque dest).1, (table.pushOpaque dest).2, []⟩ :
      Numbered).Conforms discipline kinds ty := ⟨does, added, atEnd.trans isKind⟩
  unfold numberWrite
  dsimp only
  split
  · obtain rfl := Option.some.inj isDest
    obtain rfl := Option.some.inj isTy
    exact conforms_numberConst conforms does
  · obtain rfl := Option.some.inj isDest
    obtain rfl := Option.some.inj isTy
    split
    · rename_i operands source isArgs
      refine conforms_numberCopy conforms place does allowed isKind ?_
      cases does with
      | compute _ _ _ _ yields =>
        exact yields.carried source (by rw [isArgs]; exact List.mem_singleton_self source)
    · split
      · rename_i isPure
        exact conforms_numberPure conforms place does isPure.1 isPure.2
      · exact unknown
  · exact unknown

end Writes

/-- An instruction that is numbered conforms, and so does the table. -/
theorem conforms_numberInstr (place : Place) {instr : Instr}
    (conforms : table.Conforms discipline kinds) (does : instr.Conforms discipline kinds) :
    (numberInstr place table instr).1.Conforms discipline kinds ∧
      (numberInstr place table instr).2.1.Conforms discipline kinds := by
  unfold numberInstr
  split
  · exact ⟨does, conforms⟩
  · obtain ⟨next, same⟩ := conforms_canonicalizeArgs place conforms does.action.args
    have acts := does.action.withArgs same fun _ _ => rfl
    dsimp only
    split
    · rename_i dest ty isDest isTy
      obtain ⟨action, after, atNumber⟩ := conforms_numberWrite next place acts isDest isTy
      exact ⟨does.withAction action, after.bind (acts.written isDest isTy).2 atNumber⟩
    · exact ⟨does.withAction acts, next⟩

end Numbering

end Midend
