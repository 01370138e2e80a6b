import Midend.Proofs.Ssa.Rank
import Midend.Proofs.Values.Visits
import Midend.Proofs.Values.Weight

/-! # Descent of numbered code

In single assignment the variable that stands for a value ranks lowest among those that hold it
(`ValueTable.Orderly`). So numbering makes code lighter or, where it does not, lets it read variables
of lower rank, and whatever it changes it reports (`Descends`). This holds of local numbering
(`LocalNumbering.descendsAll_run`) and of global numbering (`GlobalNumbering.descendsAll_run`). -/

namespace Midend

/-! ## Tables in order -/

namespace ValueTable

/-- A table in which the variable that stands for a value ranks lowest among those that hold it. -/
structure Orderly (rank : String → Nat) (table : ValueTable) : Prop where
  /-- Every value is held. -/
  held : table.Held
  /-- Numbers are those of values. -/
  below : ∀ var number, table.numberOf? var = some number → number < table.size
  /-- The variable that stands for a value ranks lowest. -/
  lowest : ∀ var number canonical, table.numberOf? var = some number →
    table.canonical? number = some canonical → canonical = var ∨ rank canonical < rank var

namespace Orderly

variable {rank : String → Nat} {table other : ValueTable} {dest : String} {number : Nat}

/-- The table without values is in order. -/
theorem empty : Orderly rank {} := by
  refine ⟨by simp [Held], fun var number found => ?_, fun var number canonical found => ?_⟩
  · simp [numberOf?] at found
  · simp [numberOf?] at found

/-- A variable gets a number. Unless its value is new, it had none and ranks higher than all variables
that have numbers. -/
theorem bind (orderly : Orderly rank table) (same : ∀ var, other.numberOf? var = table.numberOf? var)
    (rows : ∃ rows, other.rows = table.rows ++ rows ∧ ∀ row ∈ rows, row.var = dest)
    (isBelow : number < other.size)
    (old : number < table.size → ¬table.Bound dest ∧ ∀ var, table.Bound var → rank var < rank dest) :
    Orderly rank (other.bind dest number) := by
  obtain ⟨more, rows_eq, areDest⟩ := rows
  refine ⟨fun row inside => ?_, fun var found isFound => ?_,
    fun var found canonical isFound isCanonical => ?_⟩
  · rw [rows_bind, rows_eq] at inside
    rw [Bound, numberOf?_bind]
    split
    · exact ⟨number, rfl⟩
    · rename_i notDest
      rw [same]
      rcases List.mem_append.1 inside with inTable | isNew
      · exact orderly.held row inTable
      · exact absurd (areDest row isNew) notDest
  · rw [numberOf?_bind, same] at isFound
    split at isFound
    · rw [← Option.some.inj isFound]
      exact isBelow
    · have inTable := orderly.below var found isFound
      simp only [size, rows_bind, rows_eq, List.length_append] at inTable ⊢
      omega
  · obtain ⟨holds, row, isRow, isVar⟩ := numberOf?_of_canonical? isCanonical
    rw [numberOf?_bind, same] at isFound holds
    by_cases isDest : canonical = dest
    · rw [if_pos isDest] at holds
      by_cases sameVar : var = dest
      · exact .inl (isDest.trans sameVar.symm)
      · -- The variable stands for no old value, since that was held before.
        rw [if_neg sameVar] at isFound
        have inTable := orderly.below var found isFound
        rw [row?, rows_bind, rows_eq, List.getElem?_append_left inTable] at isRow
        rw [Option.some.inj holds] at old
        exact absurd (isDest ▸ isVar ▸ orderly.held row (List.mem_of_getElem? isRow)) (old inTable).1
    · rw [if_neg isDest] at holds
      have inTable := orderly.below canonical found holds
      by_cases sameVar : var = dest
      · rw [if_pos sameVar] at isFound
        rw [Option.some.inj isFound] at old
        rw [sameVar]
        exact .inr ((old inTable).2 canonical ⟨found, holds⟩)
      · rw [if_neg sameVar] at isFound
        refine orderly.lowest var found canonical isFound ?_
        rw [row?, rows_bind, rows_eq, List.getElem?_append_left inTable] at isRow
        simp [canonical?, ValueTable.holds, row?, isRow, isVar, holds]

/-- A variable gets a new value. -/
theorem define (orderly : Orderly rank table) (dest : String) : Orderly rank (table.define dest) := by
  refine orderly.bind (fun var => rfl) ⟨[⟨none, dest, none⟩], rfl, by simp⟩ ?_ fun isOld => ?_
  · simp [size]
  · exact absurd isOld (Nat.lt_irrefl _)

/-- Several variables get new values. -/
theorem foldl_define (orderly : Orderly rank table) (vars : List String) :
    Orderly rank (vars.foldl ValueTable.define table) := by
  induction vars generalizing table with
  | nil => exact orderly
  | cons var rest restIH => exact restIH (orderly.define var)

/-- Looking up a variable keeps the table in order. -/
theorem numberOrInput (orderly : Orderly rank table) (var : String) :
    Orderly rank (table.numberOrInput var).2 := by
  rcases table.numberOrInput_cases var with ⟨number, _, same⟩ | ⟨absent, same⟩
  · rwa [same]
  · rw [same]
    exact orderly.define var

/-- The variable that stands for the value of another one is that one or ranks lower. -/
theorem rank_canonical (orderly : Orderly rank table) {var : String}
    (found : table.numberOf? var = some number) :
    (table.canonical? number).getD var = var ∨
      rank ((table.canonical? number).getD var) < rank var := by
  cases isCanonical : table.canonical? number with
  | none => exact .inl rfl
  | some canonical => exact orderly.lowest var number canonical found isCanonical

end Orderly

end ValueTable

/-! ## What code reads -/

/-- The ranks of what an instruction reads, all together. -/
def Instr.climb (rank : String → Nat) (instr : Instr) : Nat := (instr.args.map rank).sum

/-- The ranks of what code reads, all together. -/
def climb (rank : String → Nat) (instrs : List Instr) : Nat := (instrs.map (Instr.climb rank)).sum

@[simp] theorem climb_nil (rank : String → Nat) : climb rank [] = 0 := rfl

@[simp] theorem climb_cons (rank : String → Nat) (instr : Instr) (rest : List Instr) :
    climb rank (instr :: rest) = instr.climb rank + climb rank rest := by simp [climb]

@[simp] theorem climb_append (rank : String → Nat) (left right : List Instr) :
    climb rank (left ++ right) = climb rank left + climb rank right := by simp [climb]

/-- Code was changed for the better: it got lighter, or it reads variables of lower rank; and every
change is reported. -/
structure Descends (rank : String → Nat) (instrs images : List Instr) (log : Log) : Prop where
  /-- What is not reported is not changed. -/
  quiet : log = [] → images = instrs
  /-- Code does not get heavier. -/
  weight_le : weigh images ≤ weigh instrs
  /-- If it stays as heavy it writes the same variables. -/
  dests_eq : weigh images = weigh instrs → images.filterMap Instr.dest? = instrs.filterMap Instr.dest?
  /-- Then it reads no variables of higher rank. -/
  climb_le : weigh images = weigh instrs → climb rank images ≤ climb rank instrs
  /-- If it reads variables of the same rank nothing is reported. -/
  reported : weigh images = weigh instrs → climb rank images = climb rank instrs → log = []

namespace Descends

variable {rank : String → Nat} {instrs images more others : List Instr} {log later : Log}

/-- Nothing is changed. -/
theorem refl (rank : String → Nat) (instrs : List Instr) : Descends rank instrs instrs [] :=
  ⟨fun _ => rfl, Nat.le_refl _, fun _ => rfl, fun _ => Nat.le_refl _, fun _ _ => rfl⟩

/-- Code got lighter, and that is reported. -/
theorem of_lt (lighter : weigh images < weigh instrs) (isReported : log ≠ []) :
    Descends rank instrs images log :=
  ⟨fun quiet => absurd quiet isReported, Nat.le_of_lt lighter, fun same => absurd same (by omega),
    fun same => absurd same (by omega), fun same => absurd same (by omega)⟩

/-- Two pieces of code are changed one after the other. -/
theorem append (first : Descends rank instrs images log) (second : Descends rank more others later) :
    Descends rank (instrs ++ more) (images ++ others) (log ++ later) := by
  have lighter := first.weight_le
  have lighterRest := second.weight_le
  -- The whole is as heavy only if both parts are.
  have both : weigh (images ++ others) = weigh (instrs ++ more) →
      weigh images = weigh instrs ∧ weigh others = weigh more := fun same => by
    rw [weigh_append, weigh_append] at same
    omega
  refine ⟨fun quiet => ?_, ?_, fun same => ?_, fun same => ?_, fun same sameClimb => ?_⟩
  · obtain ⟨quietFirst, quietSecond⟩ := List.append_eq_nil_iff.1 quiet
    rw [first.quiet quietFirst, second.quiet quietSecond]
  · rw [weigh_append, weigh_append]
    omega
  · rw [List.filterMap_append, List.filterMap_append, first.dests_eq (both same).1,
      second.dests_eq (both same).2]
  · rw [climb_append, climb_append]
    exact Nat.add_le_add (first.climb_le (both same).1) (second.climb_le (both same).2)
  · have lower := first.climb_le (both same).1
    have lowerRest := second.climb_le (both same).2
    rw [climb_append, climb_append] at sameClimb
    rw [first.reported (both same).1 (by omega), second.reported (both same).2 (by omega)]
    rfl

/-- One instruction and those behind it are changed. -/
theorem cons {instr image : Instr} (first : Descends rank [instr] [image] log)
    (second : Descends rank more others later) :
    Descends rank (instr :: more) (image :: others) (log ++ later) := first.append second

end Descends

namespace Numbering

open ValueTable (Orderly Bound)

variable {rank : String → Nat} {table : ValueTable}

/-- Canonical arguments rank no higher, and lower if one is replaced. -/
theorem rank_canonicalizeArgs (place : Place) (args : List String) (orderly : Orderly rank table) :
    Orderly rank (canonicalizeArgs place args table).2.1 ∧
      ((canonicalizeArgs place args table).1.map rank).sum ≤ (args.map rank).sum ∧
      (((canonicalizeArgs place args table).1.map rank).sum = (args.map rank).sum →
        (canonicalizeArgs place args table).2.2 = []) := by
  induction args generalizing table with
  | nil => exact ⟨orderly, Nat.le_refl _, fun _ => rfl⟩
  | cons arg rest restIH =>
    obtain ⟨orderlyRest, lower, quiet⟩ := restIH (orderly.numberOrInput arg)
    have lowest := (orderly.numberOrInput arg).rank_canonical (table.numberOrInput_spec arg).2
    simp only [canonicalizeArgs, List.map_cons, List.sum_cons]
    refine ⟨orderlyRest, ?_, fun same => ?_⟩
    · rcases lowest with isSame | isLower
      · rw [isSame]
        omega
      · omega
    · rcases lowest with isSame | isLower
      · rw [if_pos isSame, List.nil_append]
        exact quiet (by rw [isSame] at same; omega)
      · omega

/-- The number that something written gets is that of a value. -/
theorem number_lt_size (place : Place) (action : Action) (dest : String) (ty : Ty)
    (below : ∀ var number, table.numberOf? var = some number → number < table.size)
    (bound : ∀ arg ∈ action.operands.args, table.Bound arg) :
    (numberWrite place table action dest ty).number <
      (numberWrite place table action dest ty).table.size := by
  -- A value that is looked up is in a row of the table; every other one is pushed onto it.
  have found : ∀ {other : ValueTable} {expr number}, other.lookup? expr = some number →
      number < other.size := by
    intro other expr number isFound
    have holds := (ValueTable.get?_of_lookup? isFound).2
    unfold ValueTable.holds at holds
    split at holds
    · rename_i row isRow
      exact (List.getElem?_eq_some_iff.1 isRow).1
    · cases holds
  rcases numberWrite_cases place action dest ty with ⟨_, _, literal, _, same⟩ |
    ⟨written, ty', operands, source, isAction, isSource, same⟩ |
    ⟨op, written, ty', operands, isAction, _, _, _, same⟩ | same
  · rw [same, numberConst]
    split
    · exact found ‹_›
    · simp [ValueTable.size]
  · rw [same, numberCopy]
    obtain ⟨number, isNumber⟩ := bound source (by simp [isAction, Action.operands, isSource])
    have lookedUp : table.numberOrInput source = (number, table) := by
      simp [ValueTable.numberOrInput, isNumber]
    rw [lookedUp]
    dsimp only
    split <;> exact below source number isNumber
  · rw [isAction] at bound
    obtain ⟨numbers, isNumbers, _⟩ := numbersOf_of_bound bound
    rw [Action.operands] at isNumbers
    rw [same, numberPure, isNumbers]
    dsimp only
    split
    · unfold numberNew
      dsimp only
      split
      · split
        · rename_i isFound
          have inTable := found isFound
          exact inTable
        · simp [ValueTable.size]
      · simp [ValueTable.size]
    · split <;> exact found ‹_›
  · rw [same]
    simp [ValueTable.pushOpaque, ValueTable.size]

/-- Numbering an instruction keeps the table in order if what it writes has no number yet and ranks
higher than what has one. -/
theorem orderly_numberInstr (place : Place) (orderly : Orderly rank table) {instr : Instr}
    (notLabel : instr.isLabel = false) (notPhi : instr.isPhi = false)
    (fresh : ∀ dest, instr.dest? = some dest →
      ¬(canonicalizeArgs place instr.args table).2.1.Bound dest ∧
        ∀ var, (canonicalizeArgs place instr.args table).2.1.Bound var → rank var < rank dest) :
    Orderly rank (numberInstr place table instr).2.1 := by
  have ordered := (rank_canonicalizeArgs place instr.args orderly).1
  rcases numberInstr_cases place table notLabel notPhi with ⟨dest, ty, isDest, _, _, _, isTable⟩ |
    ⟨_, _, isTable⟩
  · rw [isTable]
    have bound := bound_canonicalized place table instr
    have grows := grows_numberWrite dest ty place bound
    exact ordered.bind grows.numberOf? grows.rows
      (number_lt_size place _ dest ty ordered.below bound) fun _ => fresh dest isDest
  · rw [isTable]
    exact ordered

/-- A numbered instruction gets lighter, or reads variables of lower rank. -/
theorem descends_numberInstr (place : Place) (orderly : Orderly rank table) {instr : Instr}
    (notLabel : instr.isLabel = false) (notPhi : instr.isPhi = false) :
    Descends rank [instr] [(numberInstr place table instr).1] (numberInstr place table instr).2.2 := by
  obtain ⟨_, lower, quiet⟩ := rank_canonicalizeArgs place instr.args orderly
  rcases lighter_or_steady place table notLabel notPhi with ⟨less, isReported⟩ | steady
  · exact .of_lt (by simpa using less) isReported
  · refine ⟨fun isQuiet => ?_, ?_, fun _ => ?_, fun _ => ?_, fun _ same => ?_⟩
    · rw [(weight_numberInstr place table notLabel notPhi).2 isQuiet]
    · simp [steady.image_eq, weight_canonicalized]
    · simp [steady.image_eq, dest?_canonicalized, List.filterMap_cons]
    · simpa [steady.image_eq, Instr.climb, args_canonicalized] using lower
    · rw [steady.log_eq]
      exact quiet (by simpa [steady.image_eq, Instr.climb, args_canonicalized] using same)

end Numbering

namespace GlobalNumbering

open ValueTable (Orderly Bound)

section Blocks

variable {graph : FlowGraph} {block : Block} {table : ValueTable}

/-- In single assignment numbered instructions get lighter, or read variables of lower rank. -/
theorem descends_body (place : Place) (inSsa : Ssa.InSsa graph) (member : block ∈ graph.blocks)
    {before body : List Instr} (split : block.instrs = before ++ body)
    (plain : ∀ instr ∈ body, instr.isLabel = false ∧ instr.isPhi = false)
    (bound : ∀ var, table.Bound var → Ssa.Available graph block.name before var)
    (orderly : Orderly graph.rank table) :
    Orderly graph.rank (numberAll (Numbering.numberInstr place) body table).2.1 ∧
      Descends graph.rank body (numberAll (Numbering.numberInstr place) body table).1
        (numberAll (Numbering.numberInstr place) body table).2.2 := by
  induction body generalizing before table with
  | nil => exact ⟨orderly, .refl _ _⟩
  | cons instr rest restIH =>
    obtain ⟨notLabel, notPhi⟩ := plain instr (List.mem_cons_self ..)
    obtain ⟨boundArgs, boundNext⟩ :=
      available_numberInstr place inSsa member split notLabel notPhi bound
    have ordered := Numbering.orderly_numberInstr place orderly notLabel notPhi fun dest isDest =>
      ⟨fun isBound => inSsa.not_available member split isDest (boundArgs dest isBound),
        fun var isBound => inSsa.rank_lt member split isDest (boundArgs var isBound)⟩
    obtain ⟨orderedRest, descends⟩ := restIH (by rw [split, List.append_assoc]; rfl)
      (fun other inside => plain other (List.mem_cons_of_mem _ inside)) boundNext ordered
    exact ⟨orderedRest, (Numbering.descends_numberInstr place orderly notLabel notPhi).cons descends⟩

/-! ## Merges -/

/-- What a merge becomes is a constant or a copy. -/
theorem weight_simplify? {dest : String} {ty : Ty} {numbers : List Nat} {expr : Expr}
    {simplified : Simplified} (found : simplify? table dest ty numbers expr = some simplified) :
    simplified.action.weight < 3 := by
  rcases (simplify?_cases found).2 with ⟨literal, _, isConst⟩ | ⟨source, _, isCopy⟩
  · simp [isConst]
  · simp [isCopy]

/-- A merge is kept as it is, without a report, or gets lighter, with one. -/
theorem weight_numberPhi (place : Place) (table : ValueTable) {phi : Instr}
    (isPhi : phi.isPhi = true) :
    ((numberPhi place table phi).1 = phi ∧ (numberPhi place table phi).2.2 = []) ∨
      ((numberPhi place table phi).1.weight < phi.weight ∧
        (numberPhi place table phi).2.2 ≠ []) := by
  obtain ⟨dest, ty, operands, isAction⟩ := Instr.exists_of_isPhi isPhi
  have isHeavy : phi.weight = 3 := by rw [Instr.weight, isAction]; rfl
  unfold numberPhi
  rw [isAction]
  dsimp only
  split
  · exact .inl ⟨rfl, rfl⟩
  · split
    · rename_i simplified isSimplified
      exact .inr ⟨by rw [isHeavy]; exact weight_simplify? isSimplified, by simp⟩
    · exact .inl ⟨rfl, rfl⟩

/-- Numbering a merge keeps the table in order. -/
theorem orderly_numberPhi (place : Place) {rank : String → Nat} (orderly : Orderly rank table)
    {phi : Instr} (isPhi : phi.isPhi = true)
    (fresh : ∀ dest, phi.dest? = some dest → ¬table.Bound dest ∧
      ∀ var, table.Bound var → rank var < rank dest) :
    Orderly rank (numberPhi place table phi).2.1 := by
  obtain ⟨dest, ty, operands, isAction⟩ := Instr.exists_of_isPhi isPhi
  have isDest : phi.dest? = some dest := by rw [Instr.dest?, isAction]; rfl
  rcases numberPhi_cases place table isAction with ⟨_, isTable⟩ | ⟨numbers, _, _, isTable⟩ |
    ⟨numbers, number, _, _, replaces, isTable⟩
  · rw [isTable]
    exact orderly.define dest
  · rw [isTable]
    refine orderly.bind (by simp) ⟨_, ValueTable.rows_push .., by simp⟩ (by simp [ValueTable.size])
      fun isOld => ?_
    exact absurd isOld (Nat.lt_irrefl _)
  · rw [isTable]
    refine orderly.bind (fun _ => rfl) ⟨[], by simp, by simp⟩ ?_ fun _ => fresh dest isDest
    -- A number whose constant or variable is known is that of a value.
    obtain ⟨_, ⟨literal, known, _⟩ | ⟨source, known, _⟩⟩ := replaces
    · obtain ⟨row, isRow, _⟩ := Option.bind_eq_some_iff.1 known
      exact (List.getElem?_eq_some_iff.1 isRow).1
    · obtain ⟨_, row, isRow, _⟩ := ValueTable.numberOf?_of_canonical? known
      exact (List.getElem?_eq_some_iff.1 isRow).1

/-- The merges of a block in single assignment, whatever values they take: they are kept as they are,
without a report, or get lighter, with one. -/
theorem descends_phis (place : Place) (inSsa : Ssa.InSsa graph) (member : block ∈ graph.blocks)
    {before phis rest : List Instr} (split : block.instrs = before ++ phis ++ rest)
    {change : Instr → Instr} (merges : ∀ phi ∈ phis, (change phi).isPhi = true)
    (sameDest : ∀ phi, (change phi).dest? = phi.dest?)
    (bound : ∀ var, table.Bound var → Ssa.Available graph block.name before var)
    (orderly : Orderly graph.rank table) :
    Orderly graph.rank (numberAll (numberPhi place) (phis.map change) table).2.1 ∧
      (∀ var, (numberAll (numberPhi place) (phis.map change) table).2.1.Bound var →
        Ssa.Available graph block.name (before ++ phis) var) ∧
      (((numberAll (numberPhi place) (phis.map change) table).1 = phis.map change ∧
          (numberAll (numberPhi place) (phis.map change) table).2.2 = []) ∨
        (weigh (numberAll (numberPhi place) (phis.map change) table).1 < weigh (phis.map change) ∧
          (numberAll (numberPhi place) (phis.map change) table).2.2 ≠ [])) := by
  induction phis generalizing before table with
  | nil =>
    refine ⟨orderly, ?_, .inl ⟨rfl, rfl⟩⟩
    rwa [List.append_nil]
  | cons phi others othersIH =>
    have isPhi := merges phi (List.mem_cons_self ..)
    have splitHere : block.instrs = before ++ phi :: (others ++ rest) := by
      rw [split, List.append_assoc]
      rfl
    obtain ⟨dest, ty, operands, isAction⟩ := Instr.exists_of_isPhi isPhi
    have isDest : phi.dest? = some dest := by
      rw [← sameDest, Instr.dest?, isAction]
      rfl
    -- A variable that is written once is not available yet where it is written, so it has no value.
    have fresh : ¬table.Bound dest := fun isBound =>
      inSsa.not_available member splitHere isDest (bound dest isBound)
    have ordered := orderly_numberPhi place orderly isPhi fun other isOther => by
      rw [sameDest, isDest] at isOther
      obtain rfl := Option.some.inj isOther
      exact ⟨fresh, fun var isBound => inSsa.rank_lt member splitHere isDest (bound var isBound)⟩
    have boundNext : ∀ var, (numberPhi place table (change phi)).2.1.Bound var →
        Ssa.Available graph block.name (before ++ [phi]) var := by
      intro var isBound
      rcases (extends_numberPhi place isAction fresh).origin var isBound with early | isNew
      · exact (bound var early).mono fun other inside => by
          rw [List.filterMap_append]
          exact List.mem_append_left _ inside
      · refine .inr (.inl (List.mem_filterMap.2 ⟨phi, by simp, ?_⟩))
        rw [isDest, List.mem_singleton.1 isNew]
    obtain ⟨orderedRest, boundRest, outcome⟩ := othersIH (by rw [split]; simp)
      (fun other inside => merges other (List.mem_cons_of_mem _ inside)) boundNext ordered
    rw [List.map_cons, (numberAll_cons ..).1, (numberAll_cons ..).2, log_numberAll_cons]
    refine ⟨orderedRest, ?_, ?_⟩
    · rwa [List.append_assoc] at boundRest
    · rw [weigh_cons, weigh_cons]
      -- It is enough that one merge gets lighter: none of the others gets heavier.
      rcases weight_numberPhi place table isPhi with ⟨isSame, quiet⟩ | ⟨lighter, isReported⟩
      · rcases outcome with ⟨sameRest, quietRest⟩ | ⟨lighterRest, isReported⟩
        · exact .inl ⟨by rw [isSame, sameRest], by rw [quiet, quietRest]; rfl⟩
        · exact .inr ⟨by rw [isSame]; omega, by simp [isReported]⟩
      · refine .inr ⟨?_, by simp [isReported]⟩
        rcases outcome with ⟨sameRest, _⟩ | ⟨lighterRest, _⟩
        · rw [sameRest]
          omega
        · omega

/-- Code weighs as much when it is parted. -/
theorem weigh_filter (keep : Instr → Bool) (instrs : List Instr) :
    weigh (instrs.filter keep) + weigh (instrs.filter fun instr => !keep instr) = weigh instrs := by
  induction instrs with
  | nil => rfl
  | cons instr rest restIH =>
    cases isKept : keep instr <;> simp [isKept] <;> omega

/-- The parts of a numbered block: kept merges, what became of the others, and the body. -/
theorem numberBlock_eq (place : Place) (table : ValueTable) (block : Block) :
    let phis := numberAll (numberPhi place) block.phis table
    let body := numberAll (Numbering.numberInstr place) block.body phis.2.1
    numberBlock place table block =
      ({ block with
          instrs := phis.1.filter Instr.isPhi ++ phis.1.filter (fun instr => !instr.isPhi) ++ body.1 },
        body.2.1, phis.2.2 ++ body.2.2) := by
  unfold numberBlock
  dsimp only
  rw [List.partition_eq_filter_filter]
  rfl

/-- In single assignment a numbered block gets lighter, or reads variables of lower rank. -/
theorem descends_numberBlock (place : Place) (inSsa : Ssa.InSsa graph)
    (wellFormed : graph.WellFormed) (member : block ∈ graph.blocks) {current : Block}
    {change : Instr → Instr} (merges : ∀ phi ∈ block.phis, (change phi).isPhi = true)
    (sameDest : ∀ phi, (change phi).dest? = phi.dest?)
    (phis_eq : current.phis = block.phis.map change) (body_eq : current.body = block.body)
    (bound : ∀ var, table.Bound var → Ssa.Available graph block.name [] var)
    (orderly : Orderly graph.rank table) :
    Orderly graph.rank (numberBlock place table current).2.1 ∧
      Descends graph.rank current.instrs (numberBlock place table current).1.instrs
        (numberBlock place table current).2.2 := by
  have split : block.instrs = [] ++ block.phis ++ block.body := by
    rw [List.nil_append, block.phis_append_body]
  obtain ⟨ordered, boundPhis, outcome⟩ :=
    descends_phis place inSsa member split merges sameDest bound orderly
  rw [← phis_eq] at ordered boundPhis outcome
  obtain ⟨orderedBody, descends⟩ := descends_body place inSsa member split
    (fun instr inside => ((wellFormed.blocks block member).plain_body instr inside).2) boundPhis ordered
  rw [← body_eq] at orderedBody descends
  have isSplit : current.instrs = current.phis ++ current.body := current.phis_append_body.symm
  rw [numberBlock_eq]
  refine ⟨orderedBody, ?_⟩
  dsimp only
  rw [isSplit]
  rcases outcome with ⟨isSame, quiet⟩ | ⟨lighter, isReported⟩
  · have areMerges : ∀ phi ∈ current.phis, phi.isPhi = true := fun phi => Block.isPhi_of_mem_phis
    rw [isSame, quiet, List.filter_eq_self.2 areMerges,
      List.filter_eq_nil_iff.2 (by simpa using areMerges), List.append_nil]
    exact (Descends.refl _ _).append descends
  · have parted := weigh_filter Instr.isPhi (numberAll (numberPhi place) current.phis table).1
    have lighterBody := descends.weight_le
    refine .of_lt ?_ (by simp [isReported])
    simp only [weigh_append]
    omega

end Blocks

end GlobalNumbering

end Midend
