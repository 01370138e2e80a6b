import Midend.Program
import Midend.Proofs.Attempt
import Midend.Proofs.Instr
import Midend.Proofs.Sorted

/-! # Well-formed functions

What `Func.check` promises: parameters and labels are distinct, instructions are well-formed, and
branches go to labels of the function (`Func.checked_of_check`). -/

namespace Midend

/-- No name is repeated in a list without repetitions. -/
theorem firstRepeated?_eq_none {names : List String} (unrepeated : firstRepeated? names = none) :
    names.Nodup := by
  have general : ∀ (names : List String) (seen : SortedSet String),
      firstRepeated?.search seen names = none → names.Nodup ∧ ∀ name ∈ names, name ∉ seen := by
    intro names
    induction names with
    | nil => exact fun _ _ => ⟨List.nodup_nil, by simp⟩
    | cons name rest restIH =>
      intro seen unrepeated
      rw [firstRepeated?.search] at unrepeated
      split at unrepeated
      · cases unrepeated
      · rename_i unseen
        rw [SortedSet.contains_iff] at unseen
        obtain ⟨nodup, fresh⟩ := restIH _ unrepeated
        have notInRest : name ∉ rest := fun member => fresh name member (by simp)
        refine ⟨List.nodup_cons.2 ⟨notInRest, nodup⟩, ?_⟩
        intro other member
        rcases List.mem_cons.1 member with rfl | inRest
        · exact unseen
        · exact fun old => fresh other inRest (by simp [old])
  exact (general names .empty unrepeated).1

namespace Instr

/-- The name of a label. -/
def labelName? (instr : Instr) : Option String :=
  match instr.action with
  | .label name => some name
  | _ => none

/-- A label is what has a label's name. -/
theorem labelName?_eq_some_iff {instr : Instr} {name : String} :
    instr.labelName? = some name ↔ instr.action = .label name := by
  unfold labelName?
  split
  · rename_i action
    rw [action, Option.some.injEq, Action.label.injEq]
  · rename_i other
    exact ⟨nofun, fun action => absurd action (other name)⟩

/-- A label has a name. -/
theorem exists_of_isLabel {instr : Instr} (isLabel : instr.isLabel = true) :
    ∃ name, instr.action = .label name := by
  unfold Instr.isLabel at isLabel
  split at isLabel
  · exact ⟨_, by assumption⟩
  · cases isLabel

/-- What is not a label has no label's name. -/
theorem labelName?_eq_none {instr : Instr} (unlabelled : instr.isLabel = false) :
    instr.labelName? = none := by
  unfold isLabel at unlabelled
  unfold labelName?
  split
  · rename_i action
    rw [action] at unlabelled
    cases unlabelled
  · rfl

end Instr

namespace Func

/-- The labels of instructions. -/
def labelNames (instrs : List Instr) : List String := instrs.filterMap Instr.labelName?

/-- What is checked of instructions one after another. -/
theorem checkInstrs_eq_ok {function : String} {labels found : SortedSet String}
    {instrs : List Instr} (checked : checkInstrs function labels instrs = .ok found) :
    (∀ instr ∈ instrs, instr.Checked) ∧ (labelNames instrs).Nodup ∧
      (∀ name ∈ labelNames instrs, name ∉ labels) ∧
        ∀ name, name ∈ found ↔ name ∈ labels ∨ name ∈ labelNames instrs := by
  induction instrs generalizing labels with
  | nil =>
    obtain rfl := Except.ok.inj checked
    simp [labelNames]
  | cons instr rest restIH =>
    rw [checkInstrs] at checked
    obtain ⟨_, instrChecked, checked⟩ := Attempt.bind_eq_ok.1 checked
    have both : ∀ {holds : Prop}, (∀ other ∈ rest, other.Checked) ∧ holds →
        (∀ other ∈ instr :: rest, other.Checked) ∧ holds := by
      rintro holds ⟨restChecked, held⟩
      refine ⟨fun other member => ?_, held⟩
      rcases List.mem_cons.1 member with rfl | inRest
      · exact instrChecked
      · exact restChecked other inRest
    -- A label has to be new, and is known from here on; nothing else adds to the labels.
    split at checked
    · rename_i name isLabel
      split at checked
      · cases checked
      · rename_i unknown
        rw [SortedSet.contains_iff] at unknown
        obtain ⟨restChecked, nodup, fresh, members⟩ := restIH checked
        have names : labelNames (instr :: rest) = name :: labelNames rest := by
          rw [labelNames, List.filterMap_cons, Instr.labelName?_eq_some_iff.2 isLabel]
          rfl
        refine both ⟨restChecked, ?_⟩
        rw [names]
        refine ⟨List.nodup_cons.2 ⟨fun member => fresh name member (by simp), nodup⟩, ?_, ?_⟩
        · intro other member old
          rcases List.mem_cons.1 member with rfl | inRest
          · exact unknown old
          · exact fresh other inRest (by simp [old])
        · intro other
          rw [members, SortedSet.mem_insert, List.mem_cons]
          tauto
    · rename_i other
      obtain ⟨restChecked, rest_facts⟩ := restIH checked
      have names : labelNames (instr :: rest) = labelNames rest := by
        rw [labelNames, List.filterMap_cons]
        have none : instr.labelName? = none := by
          unfold Instr.labelName?
          split
          · rename_i name action
            exact absurd action (other name)
          · rfl
        rw [none]
        rfl
      refine both ⟨restChecked, ?_⟩
      rw [names]
      exact rest_facts

/-- A well-formed function. -/
structure Checked (function : Func) : Prop where
  /-- Parameters have names of their own. -/
  nodup_params : (function.params.map Param.name).Nodup
  /-- Instructions are well-formed. -/
  instrs : ∀ instr ∈ function.instrs, instr.Checked
  /-- Labels have names of their own. -/
  nodup_labels : (labelNames function.instrs).Nodup
  /-- Branches go to labels. -/
  target_mem : ∀ instr ∈ function.instrs, instr.isTerminator = true → ∀ target ∈ instr.labels,
    target ∈ labelNames function.instrs

/-- A function that passes the check is well-formed. -/
theorem checked_of_check {function : Func} (checked : function.check = .ok ()) :
    function.Checked := by
  unfold check at checked
  split at checked
  · cases checked
  · rename_i noRepetition
    obtain ⟨labels, instrsChecked, checked⟩ := Attempt.bind_eq_ok.1 checked
    obtain ⟨instrs, nodup, _, members⟩ := checkInstrs_eq_ok instrsChecked
    dsimp only at checked
    split at checked
    · cases checked
    · rename_i allFound
      refine ⟨firstRepeated?_eq_none noRepetition, instrs, nodup, ?_⟩
      intro instr member ends target isTarget
      have inTargets : target ∈ (function.instrs.filter Instr.isTerminator).flatMap Instr.labels :=
        List.mem_flatMap.2 ⟨instr, List.mem_filter.2 ⟨member, ends⟩, isTarget⟩
      have known := List.find?_eq_none.1 allFound target inTargets
      have contained : target ∈ labels := by
        rw [← SortedSet.contains_iff]
        simpa using known
      exact ((members target).1 contained).resolve_left (by simp)

/-! ## Complaints -/

/-- A check that can only complain that code breaks a rule. -/
def Complains {α : Type} (check : Except Error α) : Prop :=
  ∀ error, check = .error error → ∃ message, error = .malformed message

/-- A check after another one. -/
theorem Complains.bind {α β : Type} {first : Except Error α} {next : α → Except Error β}
    (complains : Complains first) (others : ∀ answer, Complains (next answer)) :
    Complains (first >>= next) := by
  intro error failed
  rcases Attempt.bind_eq_error.1 failed with failed | ⟨answer, _, failed⟩
  · exact complains error failed
  · exact others answer error failed

/-- A check that passes does not complain. -/
theorem Complains.ok {α : Type} (answer : α) : Complains (.ok answer) := nofun

/-- A complaint. -/
theorem Complains.malformed {α : Type} (message : String) :
    Complains (.error (.malformed message) : Except Error α) :=
  fun _ failed => ⟨message, (Except.error.inj failed).symm⟩

/-- A check that passes or complains, as the case may be. -/
theorem Complains.ite {α : Type} {condition : Prop} [Decidable condition]
    {first second : Except Error α} (complains : Complains first) (others : Complains second) :
    Complains (if condition then first else second) := by
  split
  · exact complains
  · exact others

/-- Wrong operands break a rule. -/
theorem complains_checkOperands (op : Opcode) (operands : Operands) :
    Complains (Instr.checkOperands op operands) := by
  intro error failed
  unfold Instr.checkOperands at failed
  dsimp only at failed
  repeat' split at failed
  all_goals first
    | exact ⟨_, (Except.error.inj failed).symm⟩
    | cases failed

/-- An ill-formed instruction breaks a rule. -/
theorem complains_checkInstr (instr : Instr) : Complains instr.check := by
  unfold Instr.check
  split
  · exact .ok _
  · exact .ite (.malformed _) (.ok _)
  · exact .ite (.malformed _) (complains_checkOperands _ _)
  · exact .ite (.malformed _) (.bind (complains_checkOperands _ _) fun _ =>
      .ite (.malformed _) (.ok _))

/-- An ill-formed list of instructions breaks a rule. -/
theorem complains_checkInstrs (function : String) (labels : SortedSet String)
    (instrs : List Instr) : Complains (checkInstrs function labels instrs) := by
  induction instrs generalizing labels with
  | nil => exact .ok _
  | cons instr rest restIH =>
    rw [checkInstrs]
    refine .bind (complains_checkInstr instr) fun _ => ?_
    split
    · exact .ite (.malformed _) (restIH _)
    · exact restIH _

/-- An ill-formed function breaks a rule. -/
theorem complains_check (function : Func) : Complains function.check := by
  unfold check
  split
  · exact .malformed _
  · refine .bind (complains_checkInstrs _ _ _) fun labels => ?_
    dsimp only
    split
    · exact .malformed _
    · exact .ok _

end Func

end Midend
