import Midend.Pass
import Midend.Proofs.FlowGraph.Build
import Midend.Proofs.Values.Mirror
import Midend.Proofs.Values.Weight

/-! # Local value numbering, repeated

One sweep over a block finds everything that there is to find: numbering a flow graph that was
numbered changes nothing (`LocalNumbering.log_run_repeated`). The second sweep numbers other code
than the first one, but what its table knows, the table of the first sweep knew too. -/

namespace Midend

namespace Numbering

open ValueTable (Settled Mirrors Bound)

variable {table mirror : ValueTable} {change : Nat → Nat} {later : List String} {dest : String}

/-! ## Arguments -/

/-- Canonical arguments keep what a table keeps. -/
theorem settled_canonicalizeArgs (place : Place) (args : List String) (settled : table.Settled later) :
    (canonicalizeArgs place args table).2.1.Settled later := by
  induction args generalizing table with
  | nil => exact settled
  | cons arg rest restIH => exact restIH (settled.numberOrInput arg)

/-- Arguments get numbers in the table only. -/
theorem mirrors_canonicalizeArgs_left (place : Place) (args : List String)
    (mirrors : Mirrors change table mirror) :
    Mirrors change (canonicalizeArgs place args table).2.1 mirror := by
  induction args generalizing table with
  | nil => exact mirrors
  | cons arg rest restIH => exact restIH (mirrors.numberOrInput_left arg)

/-- Arguments that are canonical in the table are so in the mirror. -/
theorem mirrors_canonicalizeArgs (place : Place) {args : List String}
    (mirrors : Mirrors change table mirror) (quiet : (canonicalizeArgs place args table).2.2 = []) :
    ∃ after, Mirrors after (canonicalizeArgs place args table).2.1
        (canonicalizeArgs place args mirror).2.1 ∧
      (canonicalizeArgs place args mirror).2.2 = [] := by
  induction args generalizing table mirror change with
  | nil => exact ⟨change, mirrors, rfl⟩
  | cons arg rest restIH =>
    obtain ⟨middle, mirrored, below, same⟩ := mirrors.numberOrInput arg
    simp only [canonicalizeArgs, List.append_eq_nil_iff] at quiet ⊢
    obtain ⟨after, mirroredRest, quietMirror⟩ := restIH mirrored quiet.2
    refine ⟨after, mirroredRest, ?_, quietMirror⟩
    rw [mirrored.canonical?_eq below, same]
    exact quiet.1

/-- Variables that have numbers in the mirror have the numbers that these stand for in the table. -/
theorem exists_numbersOf (mirrors : Mirrors change table mirror) {args : List String}
    (bound : ∀ arg ∈ args, mirror.Bound arg) :
    ∃ numbers, numbersOf args mirror = (numbers, mirror) ∧
      numbersOf args table = (numbers.map change, table) ∧ ∀ number ∈ numbers, number < mirror.size := by
  induction args with
  | nil => exact ⟨[], rfl, rfl, nofun⟩
  | cons arg rest restIH =>
    obtain ⟨number, found⟩ := bound arg (List.mem_cons_self ..)
    obtain ⟨numbers, inMirror, inTable, areBelow⟩ :=
      restIH fun other member => bound other (List.mem_cons_of_mem _ member)
    obtain ⟨below, held⟩ := mirrors.var arg number found
    refine ⟨number :: numbers, ?_, ?_, List.forall_mem_cons.2 ⟨below, areBelow⟩⟩
    · simp [numbersOf, ValueTable.numberOrInput, found, inMirror]
    · simp [numbersOf, ValueTable.numberOrInput, held, inTable]

/-! ## Values that are written -/

/-- What is written keeps what a table keeps. -/
theorem settled_numberWrite (place : Place) (settled : table.Settled (dest :: later))
    (last : dest ∉ later) (action : Action) (ty : Ty)
    (bound : ∀ arg ∈ action.operands.args, table.Bound arg) :
    ((numberWrite place table action dest ty).table.bind dest
      (numberWrite place table action dest ty).number).Settled later := by
  have push : ∀ (expr : Expr) (constant : Option Literal),
      (∀ literal, constant = some literal → table.exprs.get? (.const literal) = none) →
      (∀ literal, expr = .const literal → constant = some literal) →
      ((table.push expr dest constant).2.bind dest (table.push expr dest constant).1).Settled later := by
    intro expr constant absent known
    rw [ValueTable.fst_push]
    exact settled.push last absent known
  -- A number is found again or pushed; each of the four kinds of writes looks it up in its own way.
  rcases numberWrite_cases place action dest ty with
    ⟨written, ty', literal, isAction, same⟩ |
    ⟨written, ty', operands, source, isAction, args, same⟩ |
    ⟨op, written, ty', operands, isAction, isPure, notUndef, notCopy, same⟩ | same
  · rw [same, numberConst, settled.lookup?_eq]
    split
    · rename_i number found
      exact settled.bind (settled.expr_lt found)
    · rename_i absent
      refine push _ _ ?_ ?_
      · rintro other ⟨⟩
        exact absent
      · rintro other ⟨⟩
        rfl
  · obtain ⟨number, found⟩ := bound source (by simp [isAction, Action.operands, args])
    have isNumber : table.numberOrInput source = (number, table) := by
      simp [ValueTable.numberOrInput, found]
    rw [same, numberCopy, isNumber]
    dsimp only
    split <;> exact settled.bind (settled.var_lt source number found)
  · have boundArgs : ∀ arg ∈ operands.args, table.Bound arg := by
      simpa [isAction, Action.operands] using bound
    obtain ⟨numbers, isNumbers, _⟩ := numbersOf_of_bound boundArgs
    rw [same, numberPure, isNumbers]
    dsimp only
    rw [settled.lookup?_eq]
    split
    · unfold numberNew
      dsimp only
      split
      · rename_i literal folded
        rw [settled.lookup?_eq]
        split
        · rename_i number found
          exact (settled.index found (Expr.ofOp_ne_const op numbers)).bind (settled.expr_lt found)
        · rename_i absent
          refine push _ _ ?_ fun other isConst => absurd isConst (Expr.ofOp_ne_const op numbers other)
          rintro other ⟨⟩
          exact absent
      · exact push _ _ (fun other impossible => absurd impossible (Option.some_ne_none other).symm)
          fun other isConst => absurd isConst (Expr.ofOp_ne_const op numbers other)
    · rename_i number found
      have below := settled.expr_lt found
      split <;> exact settled.bind below
  · rw [same]
    exact settled.define

/-! ## Instructions that are numbered again -/

/-- A constant stays a constant. -/
theorem numberInstr_const (place : Place) (table : ValueTable) {instr : Instr} {ty : Ty}
    {literal : Literal} (isConst : instr.action = .const dest ty literal) :
    numberInstr place table instr = (instr,
      (numberConst table instr.action dest literal).table.bind dest
        (numberConst table instr.action dest literal).number, []) := by
  have action_eq : (numberConst table instr.action dest literal).action = instr.action ∧
      (numberConst table instr.action dest literal).log = [] := by
    unfold numberConst
    split <;> exact ⟨rfl, rfl⟩
  obtain ⟨action, pos, key⟩ := instr
  obtain rfl : action = .const dest ty literal := isConst
  change (Instr.mk (numberConst table (.const dest ty literal) dest literal).action pos key, _,
    [] ++ (numberConst table (.const dest ty literal) dest literal).log) = _
  rw [action_eq.1, action_eq.2]
  rfl

/-- A copy of a canonical variable whose value is not known stays a copy. -/
theorem numberInstr_copy (place : Place) {instr : Instr} {ty : Ty} {source : String} {number : Nat}
    (isCopy : instr.action = .compute .id dest ty { args := [source] })
    (found : table.numberOf? source = some number)
    (isCanonical : table.canonical? number = some source) (unknown : table.constant? number = none) :
    numberInstr place table instr = (instr, table.bind dest number, []) := by
  obtain ⟨action, pos, key⟩ := instr
  obtain rfl : action = .compute .id dest ty { args := [source] } := isCopy
  have isNumber : table.numberOrInput source = (number, table) := by
    simp [ValueTable.numberOrInput, found]
  have canonical : canonicalizeArgs place [source] table = ([source], table, []) := by
    simp [canonicalizeArgs, isNumber, isCanonical]
  have written : numberWrite place table (.compute .id dest ty { args := [source] }) dest ty =
      ⟨.compute .id dest ty { args := [source] }, number, table, []⟩ := by
    simp [numberWrite, numberCopy, isNumber, unknown]
  rw [numberInstr, if_neg (by simp [Instr.isLabel, Instr.isPhi])]
  change (Instr.mk _ pos key, _, _) = _
  simp only [Instr.args, Action.operands, canonical, Action.mapOperands, written, List.append_nil]

/-- A constant that has a number in the table has one in the mirror. -/
theorem exists_numberConst (settled : table.Settled later) (mirrors : Mirrors change table mirror)
    {literal : Literal} {number : Nat} (found : table.exprs.get? (.const literal) = some number)
    (action : Action) (dest : String) : ∃ other < mirror.size, change other = number ∧
      numberConst mirror action dest literal = { action, number := other, table := mirror } := by
  rw [mirrors.const, Option.map_eq_some_iff] at found
  obtain ⟨other, inMirror, rfl⟩ := found
  have below := mirrors.expr_lt _ other inMirror
  have held : mirror.holds other = true := by
    rw [mirrors.holds_eq below]
    exact settled.holds ((mirrors.const literal).trans (by rw [inMirror]; rfl))
  have isFound : mirror.lookup? (.const literal) = some other := by
    rw [ValueTable.lookup?, inMirror, Option.filter_some, if_pos held]
  exact ⟨other, below, rfl, by rw [numberConst, isFound]⟩

/-- A constant that is new in the table is so in the mirror. -/
theorem numberConst_of_absent (mirrors : Mirrors change table mirror) {literal : Literal}
    (absent : table.exprs.get? (.const literal) = none) (action : Action) (dest : String) :
    numberConst mirror action dest literal =
      ⟨action, mirror.size, (mirror.push (.const literal) dest (some literal)).2, []⟩ := by
  rw [mirrors.const, Option.map_eq_none_iff] at absent
  have notFound : mirror.lookup? (.const literal) = none := by
    rw [ValueTable.lookup?, absent, Option.filter_none]
  rw [numberConst, notFound]
  simp

/-- How an instruction was numbered that is numbered again with a mirror of the table: nothing is
reported, and the mirror mirrors the table afterwards. -/
def Repeats (place : Place) (mirror : ValueTable) (instr : Instr) (dest : String)
    (numbered : Numbered) : Prop :=
  (numberInstr place mirror { instr with action := numbered.action }).2.2 = [] ∧
    ∃ after, Mirrors after (numbered.table.bind dest numbered.number)
      (numberInstr place mirror { instr with action := numbered.action }).2.1

section Repeats

variable {place : Place} {instr : Instr} {ty : Ty} {literal : Literal} {log : Log}

/-- What became a constant that the table knows. -/
theorem repeats_const (settled : table.Settled later) {after : ValueTable}
    (mirrors : Mirrors change table mirror) (mirrored : Mirrors change after mirror) {number : Nat}
    (found : table.exprs.get? (.const literal) = some number) :
    Repeats place mirror instr dest ⟨.const dest ty literal, number, after, log⟩ := by
  obtain ⟨other, below, rfl, numbered⟩ :=
    exists_numberConst settled mirrors found (.const dest ty literal) dest
  rw [Repeats, numberInstr_const place mirror rfl, numbered]
  exact ⟨rfl, change, mirrored.bind dest below⟩

/-- What became a constant that the table did not know. -/
theorem repeats_const_new (settled : table.Settled (dest :: later))
    (mirrors : Mirrors change table mirror) (absent : table.exprs.get? (.const literal) = none)
    {expr : Expr} (isExpr : expr = .const literal ∨
      ∃ op numbers, expr = Expr.ofOp op numbers ∧ table.exprs.get? expr = none) :
    Repeats place mirror instr dest ⟨.const dest ty literal, (table.push expr dest (some literal)).1,
      (table.push expr dest (some literal)).2, log⟩ := by
  rw [Repeats, numberInstr_const place mirror rfl, ValueTable.fst_push,
    numberConst_of_absent mirrors absent]
  exact ⟨rfl, mirrors.exists_push_const absent (settled.var_lt dest) isExpr⟩

/-- What stays as it is, with canonical arguments. -/
theorem repeats_same (notPhi : instr.isPhi = false) (isDest : instr.dest? = some dest)
    (isTy : instr.ty? = some ty) (quiet : (canonicalizeArgs place instr.args mirror).2.2 = [])
    {number other : Nat} {after onward : ValueTable}
    (again : numberWrite place (canonicalizeArgs place instr.args mirror).2.1 instr.action dest ty =
      ⟨instr.action, other, onward, []⟩)
    (mirrored : ∃ between, Mirrors between (after.bind dest number) (onward.bind dest other)) :
    Repeats place mirror instr dest ⟨instr.action, number, after, []⟩ := by
  obtain ⟨ty', isNumbered, isTy'⟩ := numberInstr_of_dest place mirror notPhi isDest
  obtain rfl : ty' = ty := Option.some.inj (isTy'.symm.trans isTy)
  rw [canonicalized_of_quiet place quiet, quiet, again] at isNumbered
  rw [Repeats, isNumbered]
  exact ⟨rfl, mirrored⟩

/-- What became a copy of the variable that holds the value of an expression. -/
theorem repeats_reused (settled : table.Settled later) (mirrors : Mirrors change table mirror)
    {expr : Expr} {number : Nat} (found : table.exprs.get? expr = some number)
    (unknown : table.constant? number = none) {canonical : String}
    (isCanonical : table.canonical? number = some canonical) :
    Repeats place mirror instr dest
      ⟨.compute .id dest ty { args := [canonical] }, number, table, log⟩ := by
  obtain ⟨row, isRow, isSome, held, isVar⟩ := settled.exists_canonical? found
  obtain rfl := Option.some.inj (isVar.symm.trans isCanonical)
  obtain ⟨other, below, rfl, inMirror⟩ := mirrors.exists_numberOf? isRow isSome held
  rw [Repeats, numberInstr_copy place rfl inMirror (by rw [mirrors.canonical?_eq below, isCanonical])
    (by rw [mirrors.constant?_eq below, unknown])]
  exact ⟨rfl, change, mirrors.bind dest below⟩

/-- A constant is numbered again. -/
theorem repeats_numberConst (settled : table.Settled (dest :: later))
    (mirrors : Mirrors change table mirror) :
    Repeats place mirror instr dest (numberConst table (.const dest ty literal) dest literal) := by
  unfold numberConst
  rw [settled.lookup?_eq]
  split
  · rename_i number found
    exact repeats_const settled mirrors mirrors found
  · rename_i absent
    exact repeats_const_new settled mirrors absent (.inl rfl)

end Repeats

/-- Whether both operands are one value. -/
def areSame : List Nat → Bool
  | [left, right] => left = right
  | _ => false

/-- Whether both operands are one value does not depend on the numbers. -/
theorem areSame_map {numbers : List Nat} {size : Nat} (injective : Set.InjOn change (Set.Iio size))
    (below : ∀ number ∈ numbers, number < size) : areSame (numbers.map change) = areSame numbers := by
  rcases numbers with _ | ⟨left, _ | ⟨right, _ | ⟨third, rest⟩⟩⟩
  · rfl
  · rfl
  · exact decide_eq_decide.2 (injective.eq_iff (below left (by simp)) (below right (by simp)))
  · rfl

/-- How an expression that no held value has is numbered. -/
theorem numberNew_eq (place : Place) (table : ValueTable) (action : Action) (dest : String) (ty : Ty)
    (op : Opcode) (numbers : List Nat) (expr : Expr) :
    numberNew place table action dest ty op numbers expr =
      match fold op (numbers.map table.constant?) (areSame numbers) with
      | some literal =>
        match table.lookup? (.const literal) with
        | some number => ⟨.const dest ty literal, number, table.index expr number,
            [place.report .constantFolded (dest ++ " = " ++ literal.render)]⟩
        | none => ⟨.const dest ty literal, (table.push expr dest (some literal)).1,
            (table.push expr dest (some literal)).2,
            [place.report .constantFolded (dest ++ " = " ++ literal.render)]⟩
      | none => ⟨action, (table.push expr dest none).1, (table.push expr dest none).2, []⟩ := rfl

/-- An operation that is new in the table is so in the mirror. -/
theorem lookup?_ofOp_of_absent (mirrors : Mirrors change table mirror) {op : Opcode}
    {numbers : List Nat} (absent : table.exprs.get? (Expr.ofOp op (numbers.map change)) = none) :
    mirror.lookup? (Expr.ofOp op numbers) = none := by
  cases found : mirror.exprs.get? (Expr.ofOp op numbers) with
  | none => rw [ValueTable.lookup?, found, Option.filter_none]
  | some number =>
    obtain ⟨ordered, isExpr⟩ : ∃ ordered, Expr.ofOp op numbers = .op op ordered := ⟨_, rfl⟩
    rw [isExpr] at found
    have atTable := (mirrors.op op ordered number found).2
    rw [Expr.ofOp_map isExpr, absent] at atTable
    cases atTable

/-- An operation without side effects is numbered again. -/
theorem repeats_numberPure (settled : table.Settled (dest :: later))
    (mirrors : Mirrors change table mirror) {instr : Instr} (notPhi : instr.isPhi = false) {ty : Ty}
    (isDest : instr.dest? = some dest) (isTy : instr.ty? = some ty)
    (quiet : (canonicalizeArgs place instr.args mirror).2.2 = []) {image : ValueTable}
    (isImage : (canonicalizeArgs place instr.args mirror).2.1 = image) {between : Nat → Nat}
    (mirrored : Mirrors between table image) (bound : ∀ arg ∈ instr.args, image.Bound arg) {op : Opcode}
    (written : ∀ table, numberWrite place table instr.action dest ty =
      numberPure place table instr.action dest ty op instr.args) :
    Repeats place mirror instr dest (numberPure place table instr.action dest ty op instr.args) := by
  obtain ⟨numbers, inImage, inTable, below⟩ := exists_numbersOf mirrored bound
  -- The table of the second run knows the same constants under other numbers, so it folds the same.
  have constants : numbers.map image.constant? = (numbers.map between).map table.constant? := by
    rw [List.map_map]
    exact List.map_congr_left fun number member => mirrored.constant?_eq (below number member)
  unfold numberPure
  rw [inTable]
  dsimp only
  rw [settled.lookup?_eq]
  split
  · rename_i absent
    rw [numberNew_eq]
    split
    · rename_i literal folded
      rw [settled.lookup?_eq]
      split
      · rename_i number found
        exact repeats_const settled mirrors (mirrors.indexOp_left op absent number) found
      · rename_i unknown
        exact repeats_const_new settled mirrors unknown (.inr ⟨op, _, rfl, absent⟩)
    · rename_i notFolded
      rw [areSame_map mirrored.injective below, ← constants] at notFolded
      have again :
          numberWrite place (canonicalizeArgs place instr.args mirror).2.1 instr.action dest ty =
            ⟨instr.action, image.size, (image.push (Expr.ofOp op numbers) dest none).2, []⟩ := by
        rw [isImage, written, numberPure, inImage]
        dsimp only
        rw [lookup?_ofOp_of_absent mirrored absent]
        dsimp only
        rw [numberNew_eq, notFolded]
        rfl
      exact repeats_same notPhi isDest isTy quiet again (mirrored.exists_push dest op below absent)
  · rename_i number found
    split
    · rename_i literal isConstant
      exact repeats_const settled mirrors mirrors (settled.constant number literal isConstant)
    · rename_i canonical unknown isCanonical
      exact repeats_reused settled mirrors found unknown isCanonical
    · rename_i notCanonical
      obtain ⟨row, _, _, _, isVar⟩ := settled.exists_canonical? found
      rw [notCanonical] at isVar
      cases isVar

/-- What is written is numbered again. -/
theorem repeats_numberWrite (place : Place) (settled : table.Settled (dest :: later))
    (mirrors : Mirrors change table mirror) {instr : Instr} (notPhi : instr.isPhi = false) {ty : Ty}
    (isDest : instr.dest? = some dest) (isTy : instr.ty? = some ty)
    (quiet : (canonicalizeArgs place instr.args mirror).2.2 = []) {image : ValueTable}
    (isImage : (canonicalizeArgs place instr.args mirror).2.1 = image) {between : Nat → Nat}
    (mirrored : Mirrors between table image) (bound : ∀ arg ∈ instr.args, image.Bound arg) :
    Repeats place mirror instr dest (numberWrite place table instr.action dest ty) := by
  -- One case for each kind of writing: a constant, a copy, an operation without side effects, any
  -- other.
  rcases numberWrite_cases place instr.action dest ty with
    ⟨written, ty', literal, isAction, same⟩ |
    ⟨written, ty', operands, source, isAction, args, same⟩ |
    ⟨op, written, ty', operands, isAction, isPure, notUndef, notCopy, same⟩ | same
  · rw [Instr.dest?, isAction] at isDest
    obtain rfl := Option.some.inj isDest
    rw [same, isAction]
    exact repeats_numberConst settled mirrors
  · obtain ⟨number, found⟩ := bound source (by simp [Instr.args, isAction, Action.operands, args])
    obtain ⟨below, held⟩ := mirrored.var source number found
    have inTable : table.numberOrInput source = (between number, table) := by
      simp [ValueTable.numberOrInput, held]
    have inImage : image.numberOrInput source = (number, image) := by
      simp [ValueTable.numberOrInput, found]
    rw [same, numberCopy, inTable]
    dsimp only
    split
    · rename_i literal isConstant
      exact repeats_const settled mirrors mirrors (settled.constant _ literal isConstant)
    · rename_i unknown
      refine repeats_same notPhi isDest isTy quiet ?_ ⟨between, mirrored.bind dest below⟩
      rw [isImage, same, numberCopy, inImage]
      dsimp only
      rw [mirrored.constant?_eq below, unknown]
  · have args_eq : instr.args = operands.args := by rw [Instr.args, isAction]; rfl
    rw [← args_eq] at same
    rw [same]
    exact repeats_numberPure settled mirrors notPhi isDest isTy quiet isImage mirrored bound same
  · rw [same]
    exact repeats_same notPhi isDest isTy quiet (by rw [isImage, same]; rfl) ⟨_, mirrored.define dest⟩

/-- An instruction that was numbered is numbered again without a report, and the mirror mirrors the
table afterwards. -/
theorem mirrors_numberInstr (place : Place) {instr : Instr} (notLabel : instr.isLabel = false)
    (notPhi : instr.isPhi = false) (settled : table.Settled (instr.dest?.toList ++ later))
    (last : ∀ dest, instr.dest? = some dest → dest ∉ later) (mirrors : Mirrors change table mirror) :
    (numberInstr place table instr).2.1.Settled later ∧
      (numberInstr place mirror (numberInstr place table instr).1).2.2 = [] ∧
      ∃ after, Mirrors after (numberInstr place table instr).2.1
        (numberInstr place mirror (numberInstr place table instr).1).2.1 := by
  have sameDest := dest?_canonicalized place table instr
  have settledArgs := settled_canonicalizeArgs place instr.args settled
  have mirrorsArgs := mirrors_canonicalizeArgs_left place instr.args mirrors
  -- The canonical arguments are canonical in the mirror as well.
  have quietTable := canonicalizeArgs_again place instr.args table
  rw [← args_canonicalized] at quietTable
  obtain ⟨between, mirrored, quiet⟩ := mirrors_canonicalizeArgs place mirrors
    (congrArg (fun result => result.2.2) quietTable)
  rw [quietTable] at mirrored
  cases isDest : instr.dest? with
  | none =>
    have numbered := numberInstr_of_no_dest place table notLabel isDest
    have again := numberInstr_of_no_dest place mirror ((isLabel_canonicalized ..).trans notLabel)
      (sameDest.trans isDest)
    rw [isDest] at settledArgs
    rw [numbered, again]
    exact ⟨settledArgs, quiet, between, mirrored⟩
  | some dest =>
    obtain ⟨ty, numbered, isTy⟩ := numberInstr_of_dest place table notPhi isDest
    have boundImage : ∀ arg ∈ (canonicalized place table instr).args,
        (canonicalizeArgs place (canonicalized place table instr).args mirror).2.1.Bound arg := by
      have bound := bound_canonicalized place mirror (canonicalized place table instr)
      rwa [canonicalized_of_quiet place quiet] at bound
    rw [isDest] at settledArgs
    have settledWrite := settled_numberWrite place settledArgs (last dest isDest)
      (canonicalized place table instr).action ty (bound_canonicalized place table instr)
    have repeated := repeats_numberWrite place settledArgs mirrorsArgs
      ((isPhi_canonicalized place table instr).trans notPhi) (sameDest.trans isDest)
      ((ty?_canonicalized ..).trans isTy) quiet rfl mirrored boundImage
    rw [numbered]
    exact ⟨settledWrite, repeated⟩

end Numbering

namespace GlobalNumbering

/-- Instructions that write every variable once and were numbered are numbered again without a
report. -/
theorem log_numberAll_again (place : Place) {instrs : List Instr}
    (plain : ∀ instr ∈ instrs, instr.isLabel = false ∧ instr.isPhi = false)
    (once : (instrs.filterMap Instr.dest?).Nodup) {table mirror : ValueTable} {change : Nat → Nat}
    (settled : table.Settled (instrs.filterMap Instr.dest?))
    (mirrors : table.Mirrors change mirror) :
    (numberAll (Numbering.numberInstr place)
      (numberAll (Numbering.numberInstr place) instrs table).1 mirror).2.2 = [] := by
  induction instrs generalizing table mirror change with
  | nil => rfl
  | cons instr rest restIH =>
    obtain ⟨notLabel, notPhi⟩ := plain instr (List.mem_cons_self ..)
    have dests_eq : (instr :: rest).filterMap Instr.dest? =
        instr.dest?.toList ++ rest.filterMap Instr.dest? := by
      rw [List.filterMap_cons]
      cases instr.dest? <;> rfl
    rw [dests_eq] at once settled
    have last : ∀ dest, instr.dest? = some dest → dest ∉ rest.filterMap Instr.dest? :=
      fun dest isDest inRest => List.disjoint_of_nodup_append once (by simp [isDest]) inRest
    obtain ⟨settledRest, quiet, after, mirrored⟩ :=
      Numbering.mirrors_numberInstr place notLabel notPhi settled last mirrors
    rw [(numberAll_cons ..).1, log_numberAll_cons, quiet, List.nil_append]
    exact restIH (fun other member => plain other (List.mem_cons_of_mem _ member))
      once.of_append_right settledRest mirrored

end GlobalNumbering

namespace LocalNumbering

/-- Local numbering numbers instructions that write every variable once: the old ones, under the names
in force. -/
theorem exists_renamed (place : Place) {instrs : List Instr}
    (plain : ∀ instr ∈ instrs, instr.Checked ∧ instr.isLabel = false ∧ instr.isPhi = false)
    (state : State) : ∃ renamed : List Instr,
      (∀ instr ∈ renamed, instr.Checked ∧ instr.isLabel = false ∧ instr.isPhi = false) ∧
      (numberInstrs place instrs state).1 =
        (GlobalNumbering.numberAll (Numbering.numberInstr place) renamed state.table).1 := by
  induction instrs generalizing state with
  | nil => exact ⟨[], nofun, rfl⟩
  | cons instr rest restIH =>
    obtain ⟨checked, notLabel, notPhi⟩ := plain instr (List.mem_cons_self ..)
    obtain ⟨renamed, plainRenamed, isImage⟩ := restIH
      (fun other member => plain other (List.mem_cons_of_mem _ member))
      (numberOne place instr rest state).2
    obtain ⟨⟨change, isChange⟩, sameTable⟩ := exists_mapDest_renameWrite place
      (instr.mapArgs fun arg => state.renamed.getD arg arg) rest state
    refine ⟨(renameWrite place (instr.mapArgs fun arg => state.renamed.getD arg arg) rest state).1 ::
      renamed, ?_, ?_⟩
    · refine List.forall_mem_cons.2 ⟨?_, plainRenamed⟩
      rw [isChange]
      exact ⟨(checked.mapArgs _).mapDest _, by simpa using notLabel, by simpa using notPhi⟩
    · rw [(numberInstrs_cons place notPhi rest state).1, (GlobalNumbering.numberAll_cons ..).1, isImage,
        ← sameTable]
      rfl

/-- A block that was numbered is numbered again without a report. -/
theorem log_numberInstrs_repeated (place : Place) {block : Block} (wellFormed : block.WellFormed)
    {names : NameSupply} (taken : ∀ dest ∈ block.body.filterMap Instr.dest?, dest ∈ names.taken)
    (others : NameSupply) :
    (numberInstrs place (numberInstrs place block.instrs { names }).1 { names := others }).2.2 = [] := by
  have merges : ∀ phi ∈ block.phis, phi.isPhi = true := fun phi => Block.isPhi_of_mem_phis
  obtain ⟨renamed, plain, isImage⟩ := exists_renamed place wellFormed.plain_body
    { names, table := definePhis block.phis {} }
  have once : ((numberInstrs place block.body { names, table := definePhis block.phis {} }).1.filterMap
      Instr.dest?).Nodup := (nodup_numberInstrs place wellFormed.plain_body taken).1
  obtain ⟨sameDests, notPhi⟩ := GlobalNumbering.dests_numberAll place plain (definePhis block.phis {})
  rw [isImage] at once
  rw [(numberInstrs_block place block names).1, isImage, log_numberInstrs_phis place merges,
    log_numberInstrs_of_once place notPhi once _ (fun var => by simp)]
  rw [sameDests] at once
  -- Both sweeps start with the values of the merges.
  have settled : (definePhis block.phis {}).Settled (renamed.filterMap Instr.dest?) :=
    (ValueTable.Settled.empty _).foldl_define
  have noExprs : (definePhis block.phis {}).exprs = [] := ValueTable.exprs_of_defined _ _
  exact GlobalNumbering.log_numberAll_again place (fun instr member => (plain instr member).2) once
    settled (.refl noExprs settled.var_lt)

/-- Blocks that were numbered are numbered again without a report. -/
theorem log_numberBlocks_repeated (function : String) {blocks : List Block}
    (wellFormed : ∀ block ∈ blocks, block.WellFormed) {names : NameSupply}
    (taken : ∀ block ∈ blocks, ∀ dest ∈ block.body.filterMap Instr.dest?, dest ∈ names.taken)
    (others : NameSupply) :
    (numberBlocks function (numberBlocks function blocks names).1 others).2.2 = [] := by
  induction blocks generalizing names others with
  | nil => rfl
  | cons block rest restIH =>
    have first := log_numberInstrs_repeated ⟨function, block.name, passName⟩
      (wellFormed block (List.mem_cons_self ..)) (taken block (List.mem_cons_self ..)) others
    rw [numberBlocks_cons, numberBlocks_cons]
    refine List.append_eq_nil_iff.2 ⟨first, ?_⟩
    exact restIH (fun other member => wellFormed other (List.mem_cons_of_mem _ member))
      (fun other member dest isDest => taken_numberInstrs _ _
        (taken other (List.mem_cons_of_mem _ member) dest isDest)) _

/-- A flow graph that was numbered is numbered again without a report. -/
theorem log_run_repeated {graph : FlowGraph} (wellFormed : graph.WellFormed) :
    (run (run graph).1).2 = [] := by
  refine log_numberBlocks_repeated graph.name wellFormed.blocks (fun block member dest isDest => ?_) _
  obtain ⟨instr, inside, isDest⟩ := List.mem_filterMap.1 isDest
  exact NameSupply.taken_of_dest member (Block.mem_of_mem_body inside) isDest

end LocalNumbering

namespace Pass

/-- Local numbering of the flow graph of any function in which merges come first has nothing left to
do when it is run on what it made: it reports nothing, says that nothing changed, and changes
nothing. -/
theorem localNumbering_idempotent {function : Func} {graph : FlowGraph} {log : Log}
    (built : FlowGraph.build function = .ok (graph, log))
    (leading : ∀ block ∈ graph.blocks, ∀ instr ∈ block.body, instr.isPhi = false) :
    localNumbering.run (localNumbering.run graph).graph =
      ⟨(localNumbering.run graph).graph, [], .ok false⟩ := by
  have wellFormed := (FlowGraph.builtFrom_of_build built).wellFormed leading
  have quiet := LocalNumbering.log_run_repeated wellFormed
  have formed := (LocalNumbering.recoded_run wellFormed).wellFormed wellFormed
  have same := (LocalNumbering.weigh_run formed).2 quiet
  change Outcome.mk (LocalNumbering.run (LocalNumbering.run graph).1).1
    (LocalNumbering.run (LocalNumbering.run graph).1).2
    (.ok !(LocalNumbering.run (LocalNumbering.run graph).1).2.isEmpty) = _
  rw [quiet, same]
  rfl

/-- A function that copies a variable and writes over it, computes one sum from both, writes over
where that was put, and compares a variable with itself. -/
def sumsTwice : Func where
  name := "sums"
  params := [⟨"a", .int⟩, ⟨"b", .int⟩]
  returnType := some .bool
  instrs := [.compute .add "x" .int ["a", "b"], .compute .id "y" .int ["a"], .const "a" .int (.int 0),
    .compute .add "z" .int ["b", "y"], .compute .mul "x" .int ["z", "a"],
    .compute .eq "t" .bool ["b", "b"], .effect .print ["x", "y", "z"] [], .ret (some "t")]
  pos := none

/-- The function that sums twice is changed once: the copy stays, since what it copies is written over,
the sum becomes a copy under a new name, and the comparison a constant. -/
theorem localNumbering_idempotent_sumsTwice : ∃ graph log,
    FlowGraph.build sumsTwice = .ok (graph, log) ∧ (localNumbering.run graph).result = .ok true ∧
      ((localNumbering.run graph).graph.instrs.map Instr.render) =
        ["x.0: int = add a b;", "y: int = id a;", "a: int = const 0;", "z: int = id x.0;",
          "x: int = mul x.0 a;", "t: bool = const true;", "print x y x.0;", "ret t;"] ∧
      localNumbering.run (localNumbering.run graph).graph =
        ⟨(localNumbering.run graph).graph, [], .ok false⟩ :=
  ⟨_, _, rfl, rfl, rfl, @localNumbering_idempotent sumsTwice _ _ rfl (by decide)⟩

end Pass

end Midend
