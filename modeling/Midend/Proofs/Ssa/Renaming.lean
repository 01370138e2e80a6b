import Midend.Proofs.Dominance.Walk
import Midend.Proofs.FlowGraph.WellFormed
import Midend.Proofs.Fresh
import Midend.Ssa.Construct

/-! # Renaming of one block

What the parts of the walk that renames code do to a single block: its merges get names
(`Ssa.namePhis_spec`), its instructions are renamed (`Ssa.renameInstrs_spec`), and the merges of its
successors get the values that it has at its end (`Ssa.fillSuccessors_spec`). -/

namespace Midend

namespace Ssa

open NameSupply (Supplied)

variable {stems : String → Prop}

/-! ## Names of merges -/

/-- Merges of distinct variables get fresh names, which are in force after them. -/
theorem namePhis_spec (stems : String → Prop) {phis named : List PendingPhi} {scope mid : Scope}
    {names after : NameSupply}
    (areStems : ∀ phi ∈ phis, stems phi.var) (nodup : (phis.map PendingPhi.var).Nodup)
    (isNamed : namePhis phis scope names = (named, mid, after)) :
    named = phis.map (fun phi => { phi with dest := mid.getD phi.var "" }) ∧
      Supplied stems names (named.map PendingPhi.dest) after ∧
      (∀ phi ∈ named, mid.get? phi.var = some phi.dest) ∧
      ∀ var, var ∉ phis.map PendingPhi.var → mid.get? var = scope.get? var := by
  induction phis generalizing named scope names with
  | nil =>
    rw [namePhis] at isNamed
    obtain ⟨rfl, rfl, rfl⟩ : [] = named ∧ scope = mid ∧ names = after := by simpa using isNamed
    exact ⟨rfl, .nil _, by simp, by simp⟩
  | cons phi rest restIH =>
    rw [List.map_cons, List.nodup_cons] at nodup
    rw [namePhis] at isNamed
    dsimp only at isNamed
    generalize isRest : namePhis rest (scope.insert phi.var (names.fresh phi.var).1)
      (names.fresh phi.var).2 = result at isNamed
    obtain ⟨others, last, supply⟩ := result
    obtain ⟨rfl, rfl, rfl⟩ : { phi with dest := (names.fresh phi.var).1 } :: others = named ∧
      last = mid ∧ supply = after := by simpa using isNamed
    obtain ⟨isOthers, supplied, inForce, kept⟩ :=
      restIH (fun other member => areStems other (List.mem_cons_of_mem _ member)) nodup.2 isRest
    have atHead : last.get? phi.var = some (names.fresh phi.var).1 := by
      rw [kept _ nodup.1, SortedMap.get?_insert_eq, if_pos rfl]
    refine ⟨?_, ?_, ?_, ?_⟩
    · rw [List.map_cons, ← isOthers, SortedMap.getD, atHead, Option.getD_some]
    · exact (Supplied.one names (areStems phi (List.mem_cons_self ..))).append supplied
    · intro other member
      rcases List.mem_cons.1 member with rfl | inRest
      · exact atHead
      · exact inForce other inRest
    · intro var absent
      rw [List.map_cons, List.mem_cons, not_or] at absent
      rw [kept var absent.2, SortedMap.get?_insert_eq, if_neg absent.1]

/-! ## Names in instructions -/

/-- Instructions whose reads are of the names in force and whose writes put new names in force. -/
inductive Renames : List Instr → Scope → List Instr → Scope → Prop where
  /-- No instruction. -/
  | nil (scope : Scope) : Renames [] scope [] scope
  /-- An instruction that writes no variable. -/
  | plain {instr : Instr} {rest renamed : List Instr} {scope out : Scope} :
      instr.dest? = none → Renames rest scope renamed out →
        Renames (instr :: rest) scope ((instr.mapArgs fun arg => scope.getD arg arg) :: renamed) out
  /-- An instruction that writes a variable; its new name is not in force yet. -/
  | write {instr : Instr} {rest renamed : List Instr} {scope out : Scope} {dest name : String} :
      instr.dest? = some dest → (∀ var, scope.get? var ≠ some name) →
        Renames rest (scope.insert dest name) renamed out →
          Renames (instr :: rest) scope
            (((instr.mapArgs fun arg => scope.getD arg arg).mapDest fun _ => name) :: renamed) out

/-- Instructions are renamed with fresh names, where the names in force are taken. -/
theorem renameInstrs_spec (stems : String → Prop) {instrs renamed : List Instr}
    {scope out : Scope} {names after : NameSupply}
    (areStems : ∀ instr ∈ instrs, ∀ dest, instr.dest? = some dest → stems dest)
    (inForce : ∀ var name, scope.get? var = some name → name ∈ names.taken)
    (isRenamed : renameInstrs instrs scope names = (renamed, out, after)) :
    Renames instrs scope renamed out ∧
      Supplied stems names (renamed.filterMap Instr.dest?) after := by
  induction instrs generalizing scope names renamed with
  | nil =>
    rw [renameInstrs] at isRenamed
    obtain ⟨rfl, rfl, rfl⟩ : [] = renamed ∧ scope = out ∧ names = after := by
      simpa using isRenamed
    exact ⟨.nil _, .nil _⟩
  | cons instr rest restIH =>
    have restStems : ∀ other ∈ rest, ∀ dest, other.dest? = some dest → stems dest :=
      fun other member => areStems other (List.mem_cons_of_mem _ member)
    rw [renameInstrs] at isRenamed
    dsimp only at isRenamed
    split at isRenamed
    · rename_i dest isDest
      rw [Instr.dest?_mapArgs] at isDest
      generalize isRest : renameInstrs rest (scope.insert dest (names.fresh dest).1)
        (names.fresh dest).2 = result at isRenamed
      obtain ⟨others, last, supply⟩ := result
      obtain ⟨rfl, rfl, rfl⟩ : ((instr.mapArgs fun arg => scope.getD arg arg).mapDest
        fun _ => (names.fresh dest).1) :: others = renamed ∧ last = out ∧ supply = after := by
          simpa using isRenamed
      have isStem := areStems instr (List.mem_cons_self ..) dest isDest
      have given : Supplied stems names [(names.fresh dest).1] (names.fresh dest).2 :=
        .one names isStem
      -- The fresh name is taken now, and so is everything that was in force.
      obtain ⟨renames, supplied⟩ := restIH restStems (by
        intro var name held
        rw [SortedMap.get?_insert_eq] at held
        split at held
        · obtain rfl := Option.some.inj held
          exact (given.mem_iff _).2 (.inr (List.mem_singleton_self _))
        · exact given.mono (inForce var name held)) isRest
      -- No variable had the fresh name: the names in force were taken before.
      refine ⟨.write isDest (fun var held => ?_) renames, ?_⟩
      · exact given.notMem _ (List.mem_singleton_self _) (inForce var _ held)
      · simp only [List.filterMap_cons, Instr.dest?_mapDest, Instr.dest?_mapArgs, isDest,
          Option.map_some]
        exact given.append supplied
    · rename_i isDest
      rw [Instr.dest?_mapArgs] at isDest
      generalize isRest : renameInstrs rest scope names = result at isRenamed
      obtain ⟨others, last, supply⟩ := result
      obtain ⟨rfl, rfl, rfl⟩ : (instr.mapArgs fun arg => scope.getD arg arg) :: others = renamed ∧
        last = out ∧ supply = after := by simpa using isRenamed
      obtain ⟨renames, supplied⟩ := restIH restStems inForce isRest
      refine ⟨.plain isDest renames, ?_⟩
      simpa only [List.filterMap_cons, Instr.dest?_mapArgs, isDest] using supplied

namespace Renames

variable {instrs renamed : List Instr} {scope out : Scope}

/-- What is in force at the end was in force before or is a new name. -/
theorem out_cases (renames : Renames instrs scope renamed out) {var name : String}
    (held : out.get? var = some name) :
    scope.get? var = some name ∨ name ∈ renamed.filterMap Instr.dest? := by
  induction renames with
  | nil => exact .inl held
  | plain isDest _ restIH =>
    simpa only [List.filterMap_cons, Instr.dest?_mapArgs, isDest] using restIH held
  | write isDest _ _ restIH =>
    simp only [List.filterMap_cons, Instr.dest?_mapDest, Instr.dest?_mapArgs, isDest,
      Option.map_some, List.mem_cons]
    rcases restIH held with before | isNew
    · rw [SortedMap.get?_insert_eq] at before
      split at before
      · exact .inr (.inl (Option.some.inj before).symm)
      · exact .inl before
    · exact .inr (.inr isNew)

/-- A variable that is not written keeps its name. -/
theorem get?_eq (renames : Renames instrs scope renamed out) {var : String}
    (unwritten : ∀ instr ∈ instrs, instr.dest? ≠ some var) : out.get? var = scope.get? var := by
  induction renames with
  | nil => rfl
  | plain _ _ restIH => exact restIH fun other member => unwritten other (List.mem_cons_of_mem _ member)
  | write isDest _ _ restIH =>
    rw [restIH fun other member => unwritten other (List.mem_cons_of_mem _ member),
      SortedMap.get?_insert_eq, if_neg]
    rintro rfl
    exact unwritten _ (List.mem_cons_self ..) isDest

/-- What a renamed instruction reads was in force at the start, or is the name of an earlier
instruction, or is a name that an instruction read already. -/
theorem arg_cases (renames : Renames instrs scope renamed out) {before after : List Instr}
    {instr : Instr} (split : renamed = before ++ instr :: after) {arg : String}
    (member : arg ∈ instr.args) :
    (∃ var, scope.get? var = some arg) ∨ arg ∈ before.filterMap Instr.dest? ∨
      ∃ other ∈ instrs, arg ∈ other.args := by
  -- What a single instruction reads.
  have single : ∀ {other : Instr} {scope : Scope}, arg ∈ (other.args.map fun arg =>
      scope.getD arg arg) → (∃ var, scope.get? var = some arg) ∨ arg ∈ other.args := by
    intro other scope isArg
    obtain ⟨read, inside, rfl⟩ := List.mem_map.1 isArg
    rw [SortedMap.getD]
    cases found : scope.get? read with
    | none => exact .inr inside
    | some name => exact .inl ⟨read, found⟩
  induction renames generalizing before with
  | nil => simp at split
  | plain isDest _ restIH =>
    cases before with
    | nil =>
      obtain ⟨rfl, _⟩ := List.cons.inj split
      rw [Instr.args_mapArgs] at member
      rcases single member with inForce | isArg
      · exact .inl inForce
      · exact .inr (.inr ⟨_, List.mem_cons_self .., isArg⟩)
    | cons first before =>
      obtain ⟨rfl, rest⟩ := List.cons.inj split
      simp only [List.filterMap_cons, Instr.dest?_mapArgs, isDest]
      rcases restIH rest with inForce | earlier | ⟨other, inside, isArg⟩
      · exact .inl inForce
      · exact .inr (.inl earlier)
      · exact .inr (.inr ⟨other, List.mem_cons_of_mem _ inside, isArg⟩)
  | write isDest _ _ restIH =>
    cases before with
    | nil =>
      obtain ⟨rfl, _⟩ := List.cons.inj split
      rw [Instr.args_mapDest, Instr.args_mapArgs] at member
      rcases single member with inForce | isArg
      · exact .inl inForce
      · exact .inr (.inr ⟨_, List.mem_cons_self .., isArg⟩)
    | cons first before =>
      obtain ⟨rfl, rest⟩ := List.cons.inj split
      simp only [List.filterMap_cons, Instr.dest?_mapDest, Instr.dest?_mapArgs, isDest,
        Option.map_some, List.mem_cons]
      rcases restIH rest with ⟨var, inForce⟩ | earlier | ⟨other, inside, isArg⟩
      · rw [SortedMap.get?_insert_eq] at inForce
        split at inForce
        · exact .inr (.inl (.inl (Option.some.inj inForce).symm))
        · exact .inl ⟨var, inForce⟩
      · exact .inr (.inl (.inr earlier))
      · exact .inr (.inr ⟨other, .inr inside, isArg⟩)

/-- A renamed instruction comes from one with the same operation and labels. -/
theorem exists_original (renames : Renames instrs scope renamed out) {instr : Instr}
    (member : instr ∈ renamed) : ∃ original ∈ instrs, (original.Checked → instr.Checked) ∧
      instr.op? = original.op? ∧ instr.labels = original.labels ∧
        instr.isPhi = original.isPhi ∧ instr.isLabel = original.isLabel := by
  induction renames with
  | nil => cases member
  | plain isDest _ restIH =>
    rcases List.mem_cons.1 member with rfl | inRest
    · exact ⟨_, List.mem_cons_self .., fun checked => checked.mapArgs _, by simp⟩
    · obtain ⟨original, inside, facts⟩ := restIH inRest
      exact ⟨original, List.mem_cons_of_mem _ inside, facts⟩
  | write isDest _ _ restIH =>
    rcases List.mem_cons.1 member with rfl | inRest
    · exact ⟨_, List.mem_cons_self .., fun checked => (checked.mapArgs _).mapDest _, by simp⟩
    · obtain ⟨original, inside, facts⟩ := restIH inRest
      exact ⟨original, List.mem_cons_of_mem _ inside, facts⟩

/-- The last instruction of a block stays last when it writes no variable. -/
theorem exists_concat (renames : Renames instrs scope renamed out) {front : List Instr}
    {last : Instr} (split : instrs = front ++ [last]) (isDest : last.dest? = none) :
    ∃ others, renamed = others ++ [last.mapArgs fun arg => out.getD arg arg] ∧
      Renames front scope others out := by
  induction renames generalizing front with
  | nil => simp at split
  | plain noDest rest restIH =>
    cases front with
    | nil =>
      obtain ⟨rfl, rfl⟩ := List.cons.inj split
      cases rest
      exact ⟨[], rfl, .nil _⟩
    | cons first front =>
      obtain ⟨rfl, later⟩ := List.cons.inj split
      obtain ⟨others, rfl, renames⟩ := restIH later
      exact ⟨_ :: others, rfl, .plain noDest renames⟩
  | write hasDest isNew rest restIH =>
    cases front with
    | nil =>
      obtain ⟨rfl, rfl⟩ := List.cons.inj split
      rw [isDest] at hasDest
      cases hasDest
    | cons first front =>
      obtain ⟨rfl, later⟩ := List.cons.inj split
      obtain ⟨others, rfl, renames⟩ := restIH later
      exact ⟨_ :: others, rfl, .write hasDest isNew renames⟩

end Renames

/-! ## Values at the end of a block -/

/-- The name of a variable at the end of a block: the one in force, or else the undefined value made
for it. -/
def valueOf (scope : Scope) (undefs : SortedMap String String) (var : String) : String :=
  (scope.get? var).getD (undefs.getD var "")

/-- More undefined values than before, with the names given out for them. -/
structure Undefs.Grown (stems : String → Prop) (undefs : Undefs) (names : NameSupply)
    (more : List Instr) (last : Undefs) (after : NameSupply) : Prop where
  /-- The instructions that make them were added at the end. -/
  instrs_eq : last.instrs = undefs.instrs ++ more
  /-- They make undefined values. -/
  isUndef : ∀ instr ∈ more, ∃ name ty, instr = Instr.undef name ty
  /-- Their names are fresh. -/
  supplied : Supplied stems names (more.filterMap Instr.dest?) after
  /-- Variables keep the values made for them. -/
  kept : ∀ var name, undefs.byVar.get? var = some name → last.byVar.get? var = some name
  /-- A value is an earlier one or made by one of the instructions. -/
  cases : ∀ var name, last.byVar.get? var = some name →
    undefs.byVar.get? var = some name ∨ name ∈ more.filterMap Instr.dest?

namespace Undefs.Grown

variable {undefs middle last : Undefs} {names supply after : NameSupply} {more others : List Instr}

/-- Nothing was added. -/
theorem refl (undefs : Undefs) (names : NameSupply) :
    undefs.Grown stems names [] undefs names :=
  ⟨by simp, by simp, .nil _, fun _ _ => id, fun _ _ => .inl⟩

/-- Values were added in two parts. -/
theorem trans (first : undefs.Grown stems names more middle supply)
    (second : middle.Grown stems supply others last after) :
    undefs.Grown stems names (more ++ others) last after := by
  refine ⟨?_, ?_, ?_, ?_, ?_⟩
  · rw [second.instrs_eq, first.instrs_eq, List.append_assoc]
  · intro instr member
    rcases List.mem_append.1 member with early | late
    · exact first.isUndef instr early
    · exact second.isUndef instr late
  · rw [List.filterMap_append]
    exact first.supplied.append second.supplied
  · exact fun var name held => second.kept var name (first.kept var name held)
  · intro var name held
    rw [List.filterMap_append, List.mem_append]
    rcases second.cases var name held with before | late
    · rcases first.cases var name before with before | early
      · exact .inl before
      · exact .inr (.inl early)
    · exact .inr (.inr late)

end Undefs.Grown

/-- The value of a variable is the one in force or the undefined one, which may have to be made. -/
theorem valueAtEnd_spec {scope : Scope} {phi : PendingPhi} {undefs middle : Undefs}
    {names after : NameSupply} {value : String} (isStem : stems (phi.var ++ ".undef"))
    (found : valueAtEnd scope phi undefs names = (value, middle, after)) :
    (∃ more, undefs.Grown stems names more middle after) ∧
      (scope.get? phi.var = some value ∨
        scope.get? phi.var = none ∧ middle.byVar.get? phi.var = some value) := by
  unfold valueAtEnd at found
  split at found
  · rename_i name inForce
    obtain ⟨rfl, rfl, rfl⟩ : name = value ∧ undefs = middle ∧ names = after := by simpa using found
    exact ⟨⟨[], .refl _ _⟩, .inl inForce⟩
  · rename_i name noneInForce made
    obtain ⟨rfl, rfl, rfl⟩ : name = value ∧ undefs = middle ∧ names = after := by simpa using found
    exact ⟨⟨[], .refl _ _⟩, .inr ⟨noneInForce, made⟩⟩
  · rename_i noneInForce noneMade
    dsimp only at found
    obtain ⟨rfl, rfl, rfl⟩ : (names.fresh (phi.var ++ ".undef")).1 = value ∧
        ⟨undefs.byVar.insert phi.var (names.fresh (phi.var ++ ".undef")).1,
          undefs.instrs ++ [Instr.undef (names.fresh (phi.var ++ ".undef")).1 phi.ty]⟩ = middle ∧
        (names.fresh (phi.var ++ ".undef")).2 = after := by simpa using found
    refine ⟨⟨[_], rfl, ?_, Supplied.one names isStem, ?_, ?_⟩, .inr ⟨noneInForce, ?_⟩⟩
    · exact fun instr member => ⟨_, _, List.mem_singleton.1 member⟩
    · intro var name held
      rw [SortedMap.get?_insert_eq, if_neg, held]
      rintro rfl
      rw [noneMade] at held
      cases held
    · intro var name held
      rw [SortedMap.get?_insert_eq] at held
      split at held
      · exact .inr (List.mem_singleton.2 (Option.some.inj held).symm)
      · exact .inl held
    · rw [SortedMap.get?_insert_eq, if_pos rfl]

/-- A merge that gets one more value from a block. -/
def PendingPhi.receive (block : String) (value : String → String) (phi : PendingPhi) : PendingPhi :=
  { phi with incoming := phi.incoming ++ [(block, value phi.var)] }

/-- The values that a list of merges takes from the end of a block are those of any later list of
undefined values. -/
theorem fillPhis_spec {block : String} {scope : Scope} {pending filled : List PendingPhi}
    {undefs middle : Undefs} {names after : NameSupply}
    (areStems : ∀ phi ∈ pending, stems (phi.var ++ ".undef"))
    (isFilled : fillPhis block scope pending undefs names = (filled, middle, after)) :
    (∃ more, undefs.Grown stems names more middle after) ∧
      ∀ last : SortedMap String String,
        (∀ var name, middle.byVar.get? var = some name → last.get? var = some name) →
        filled = pending.map (PendingPhi.receive block (valueOf scope last)) ∧
        ∀ phi ∈ pending, scope.get? phi.var = none → ∃ name, last.get? phi.var = some name := by
  induction pending generalizing filled undefs names with
  | nil =>
    rw [fillPhis] at isFilled
    obtain ⟨rfl, rfl, rfl⟩ : [] = filled ∧ undefs = middle ∧ names = after := by
      simpa using isFilled
    exact ⟨⟨[], .refl _ _⟩, fun _ _ => ⟨rfl, by simp⟩⟩
  | cons phi rest restIH =>
    rw [fillPhis] at isFilled
    generalize found : valueAtEnd scope phi undefs names = first at isFilled
    obtain ⟨value, undefs', names'⟩ := first
    dsimp only at isFilled
    generalize isRest : fillPhis block scope rest undefs' names' = result at isFilled
    obtain ⟨others, last', supply⟩ := result
    obtain ⟨rfl, rfl, rfl⟩ : { phi with incoming := phi.incoming ++ [(block, value)] } :: others =
      filled ∧ last' = middle ∧ supply = after := by simpa using isFilled
    obtain ⟨⟨more, grown⟩, isValue⟩ := valueAtEnd_spec (areStems phi (List.mem_cons_self ..)) found
    obtain ⟨⟨further, grownRest⟩, restSpec⟩ :=
      restIH (fun other member => areStems other (List.mem_cons_of_mem _ member)) isRest
    refine ⟨⟨more ++ further, grown.trans grownRest⟩, fun last extends' => ?_⟩
    obtain ⟨isOthers, made⟩ := restSpec last extends'
    -- Undefined values are kept once they are made, so any later list has them.
    have atEnd : ∀ {name}, undefs'.byVar.get? phi.var = some name → last.get? phi.var = some name :=
      fun held => extends' _ _ (grownRest.kept _ _ held)
    refine ⟨?_, ?_⟩
    · rw [List.map_cons, ← isOthers]
      congr 1
      rw [PendingPhi.receive, valueOf]
      rcases isValue with inForce | ⟨noneInForce, isMade⟩
      · rw [inForce, Option.getD_some]
      · rw [noneInForce, Option.getD_none, SortedMap.getD, atEnd isMade, Option.getD_some]
    · intro other member noneInForce
      rcases List.mem_cons.1 member with rfl | inRest
      · rcases isValue with inForce | ⟨_, isMade⟩
        · rw [noneInForce] at inForce
          cases inForce
        · exact ⟨value, atEnd isMade⟩
      · exact made other inRest noneInForce

/-- Merges of which those in the successors of a block got a value from the end of it. -/
structure PendingPhis.Fed (block : String) (scope : Scope) (last : SortedMap String String)
    (successors : List String) (phis filled : PendingPhis) : Prop where
  /-- The merges of the successors have one value more. -/
  getD_eq : ∀ name, filled.getD name [] = if name ∈ successors
    then (phis.getD name []).map (PendingPhi.receive block (valueOf scope last))
    else phis.getD name []
  /-- A variable without a value got an undefined one. -/
  made : ∀ name ∈ successors, ∀ phi ∈ phis.getD name [], scope.get? phi.var = none →
    ∃ made, last.get? phi.var = some made

namespace PendingPhis.Fed

variable {block successor : String} {scope : Scope} {last : SortedMap String String}
  {rest : List String} {phis filled : PendingPhis}

/-- A successor without merges may be added. -/
theorem skip (fed : PendingPhis.Fed block scope last rest phis filled)
    (none : phis.getD successor [] = []) :
    PendingPhis.Fed block scope last (successor :: rest) phis filled := by
  refine ⟨fun name => ?_, fun name member phi inside noneInForce => ?_⟩
  · rw [fed.getD_eq]
    by_cases same : name = successor
    · subst same
      rw [if_pos (List.mem_cons_self ..), none, List.map_nil, ite_self]
    · simp only [same, List.mem_cons, false_or]
  · rcases List.mem_cons.1 member with rfl | inRest
    · rw [none] at inside
      cases inside
    · exact fed.made name inRest phi inside noneInForce

/-- The merges of one successor are fed before those of the others. -/
theorem cons {received : List PendingPhi}
    (fed : PendingPhis.Fed block scope last rest (SortedMap.insert phis successor received) filled)
    (isNew : successor ∉ rest)
    (isReceived : received =
      (phis.getD successor []).map (PendingPhi.receive block (valueOf scope last)))
    (made : ∀ phi ∈ phis.getD successor [], scope.get? phi.var = none →
      ∃ made, last.get? phi.var = some made) :
    PendingPhis.Fed block scope last (successor :: rest) phis filled := by
  have getD_insert : ∀ name, (SortedMap.insert phis successor received).getD name [] =
      if name = successor then received else phis.getD name [] := by
    intro name
    rw [SortedMap.getD, SortedMap.get?_insert_eq]
    split <;> rfl
  refine ⟨fun name => ?_, fun name member phi inside noneInForce => ?_⟩
  · rw [fed.getD_eq, getD_insert]
    by_cases same : name = successor
    · subst same
      rw [if_neg isNew, if_pos rfl, if_pos (List.mem_cons_self ..), isReceived]
    · simp only [same, if_false, List.mem_cons, false_or]
  · rcases List.mem_cons.1 member with rfl | inRest
    · exact made phi inside noneInForce
    · have apart : name ≠ successor := by
        rintro rfl
        exact isNew inRest
      refine fed.made name inRest phi ?_ noneInForce
      rwa [getD_insert, if_neg apart]

end PendingPhis.Fed

/-- Merges stay merges of the same variables when they get values. -/
theorem areStems_receive {phis : PendingPhis} {block : String} {value : String → String}
    (areStems : ∀ name, ∀ phi ∈ phis.getD name [], stems (phi.var ++ ".undef"))
    (successor : String) : ∀ name, ∀ phi ∈ (SortedMap.insert phis successor
      ((phis.getD successor []).map (PendingPhi.receive block value))).getD name [],
      stems (phi.var ++ ".undef") := by
  intro name phi member
  rw [SortedMap.getD, SortedMap.get?_insert_eq] at member
  split at member
  · obtain ⟨original, inside, rfl⟩ := List.mem_map.1 member
    exact areStems successor original inside
  · exact areStems name phi member

/-- The merges of all successors of a block get the values that it has at its end. -/
theorem fillSuccessors_spec (stems : String → Prop) {block : String} {scope : Scope}
    {successors : List String} {phis filled : PendingPhis} {undefs middle : Undefs}
    {names after : NameSupply}
    (areStems : ∀ name, ∀ phi ∈ phis.getD name [], stems (phi.var ++ ".undef"))
    (nodup : successors.Nodup)
    (isFilled : fillSuccessors block scope successors phis undefs names = (filled, middle, after)) :
    (∃ more, undefs.Grown stems names more middle after) ∧
      ∀ last : SortedMap String String,
        (∀ var name, middle.byVar.get? var = some name → last.get? var = some name) →
        PendingPhis.Fed block scope last successors phis filled := by
  induction successors generalizing phis undefs names with
  | nil =>
    rw [fillSuccessors] at isFilled
    obtain ⟨rfl, rfl, rfl⟩ : phis = filled ∧ undefs = middle ∧ names = after := by
      simpa using isFilled
    exact ⟨⟨[], .refl _ _⟩, fun _ _ => ⟨by simp, by simp⟩⟩
  | cons successor rest restIH =>
    rw [List.nodup_cons] at nodup
    rw [fillSuccessors] at isFilled
    split at isFilled
    · rename_i pending isPending
      obtain rfl : phis.getD successor [] = pending := by
        rw [SortedMap.getD, isPending, Option.getD_some]
      generalize isFirst : fillPhis block scope (phis.getD successor []) undefs names = first
        at isFilled
      obtain ⟨received, undefs', names'⟩ := first
      dsimp only at isFilled
      obtain ⟨⟨more, grown⟩, firstSpec⟩ := fillPhis_spec (areStems successor) isFirst
      -- Filling the merges of one successor leaves those of the others as they are.
      obtain ⟨⟨further, grownRest⟩, restSpec⟩ := restIH
        (by
          rw [(firstSpec undefs'.byVar fun _ _ => id).1]
          exact areStems_receive areStems successor)
        nodup.2 isFilled
      refine ⟨⟨more ++ further, grown.trans grownRest⟩, fun last extends' => ?_⟩
      obtain ⟨isReceived, made⟩ := firstSpec last fun var name held =>
        extends' _ _ (grownRest.kept _ _ held)
      exact (restSpec last extends').cons nodup.1 isReceived made
    · rename_i noPending
      obtain ⟨grown, restSpec⟩ := restIH areStems nodup.2 isFilled
      refine ⟨grown, fun last extends' => (restSpec last extends').skip ?_⟩
      rw [SortedMap.getD, noPending, Option.getD_none]

end Ssa

end Midend
