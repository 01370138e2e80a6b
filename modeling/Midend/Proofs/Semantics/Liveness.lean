import Midend.Proofs.Semantics.Simulation

/-! # Wanted variables

A variable is wanted at a point of straight-line code when its value may be read later on. A run
depends on the values of wanted variables only: two environments that agree on them, possibly under
other names, run alike (`Env.Carries.exec`). -/

namespace Midend

/-! ## Environments that agree on some variables -/

/-- One environment holds what another one holds of some variables, under changed names. -/
def Env.Carries (base : String → Prop) (change : String → String) (env mirror : Env) : Prop :=
  ∀ var, base var → ∀ value, env var = some value → mirror (change var) = some value

namespace Env.Carries

variable {base after : String → Prop} {change : String → String} {env mirror : Env}

/-- An environment holds what it holds. -/
theorem refl (base : String → Prop) (env : Env) : Carries base id env env := fun _ _ _ held => held

/-- Fewer variables are carried over. -/
theorem mono (carries : Carries base change env mirror) (subset : ∀ var, after var → base var) :
    Carries after change env mirror := fun var isWanted => carries var (subset var isWanted)

/-- A write is carried over when no other variable has the name of the one written. -/
theorem set (carries : Carries base change env mirror) {dest : String}
    (subset : ∀ var, after var → var ≠ dest → base var)
    (apart : ∀ var, after var → var ≠ dest → change var ≠ change dest) (value : Value) :
    Carries after change (env.set dest value) (mirror.set (change dest) value) := by
  intro var isWanted held isHeld
  by_cases isDest : var = dest
  · subst isDest
    rwa [Env.set_self] at isHeld ⊢
  · rw [Env.set_of_ne _ _ isDest] at isHeld
    rw [Env.set_of_ne _ _ (apart var isWanted isDest)]
    exact carries var (subset var isWanted isDest) held isHeld

/-- A write of a variable that is not carried over need not be made. -/
theorem set_left (carries : Carries base change env mirror) {dest : String}
    (subset : ∀ var, after var → var ≠ dest → base var) (unwanted : ¬after dest) (value : Value) :
    Carries after change (env.set dest value) mirror := by
  intro var isWanted held isHeld
  have apart : var ≠ dest := fun same => unwanted (same ▸ isWanted)
  rw [Env.set_of_ne _ _ apart] at isHeld
  exact carries var (subset var isWanted apart) held isHeld

end Env.Carries

namespace Instr

/-- What a run reads are arguments. -/
theorem mem_args_of_mem_reads {instr : Instr} {var : String} (member : var ∈ instr.reads) :
    var ∈ instr.args := by
  unfold reads Action.reads at member
  unfold args Action.operands
  split at member
  · rename_i isAction
    rw [isAction]
    exact List.mem_of_mem_take member
  · cases member
  · cases member
  · rename_i isAction
    rw [isAction]
    exact List.mem_of_mem_take member
  · rename_i isAction
    rw [isAction]
    exact List.mem_of_mem_take member
  · cases member
  · exact member

/-- An instruction whose operation has no side effect does not end a block. -/
theorem isTerminator_of_isPure {instr : Instr} (isPure : instr.isPure = true) :
    instr.isTerminator = false := by
  unfold Instr.isPure at isPure
  unfold isTerminator op?
  split at isPure
  · rename_i isAction
    rw [isAction]
    rfl
  · rename_i op _ _ _ isAction
    rw [isAction]
    cases op <;> first | rfl | cases isPure
  · cases isPure

/-- An instruction whose operation has no side effect prints nothing. -/
theorem lines_of_isPure {instr : Instr} (isPure : instr.isPure = true) {machine : Machine}
    {calls : Calls} {state next : State} {control : Control}
    (ran : instr.exec machine calls state = some (next, control)) : next.lines = state.lines := by
  obtain ⟨values, effect, _, performed, rfl, _⟩ := exec_eq_some_iff.1 ran
  have silent : effect.lines = [] := by
    unfold Instr.isPure at isPure
    split at isPure
    · rename_i isAction
      rw [isAction] at performed
      obtain rfl := Option.some.inj performed
      rfl
    · rename_i op _ _ _ isAction
      rw [isAction, Action.perform] at performed
      unfold Action.performCompute at performed
      split at performed
      · cases isPure
      · obtain ⟨_, _, performed⟩ := Option.bind_eq_some_iff.1 performed
        obtain rfl := Option.some.inj performed
        rfl
      · obtain rfl := Option.some.inj performed
        rfl
      · obtain ⟨_, _, performed⟩ := Option.bind_eq_some_iff.1 performed
        obtain rfl := Option.some.inj performed
        rfl
    · cases isPure
  change state.lines ++ effect.lines = state.lines
  rw [silent, List.append_nil]

/-! ## Wanted variables -/

/-- Whether a variable is wanted in front of instructions: one of them reads it before any writes it,
or none writes it and it is wanted behind them. -/
def Wanted (out : String → Prop) : List Instr → String → Prop
  | [], var => out var
  | instr :: rest, var => var ∈ instr.args ∨ (instr.dest? ≠ some var ∧ Wanted out rest var)

/-- What is wanted in front of two lists of instructions. -/
theorem wanted_append (out : String → Prop) (left right : List Instr) :
    Wanted out (left ++ right) = Wanted (Wanted out right) left := by
  induction left with
  | nil => rfl
  | cons instr rest restIH =>
    funext var
    rw [List.cons_append, Wanted, Wanted, restIH]

/-- Where all arguments are wanted in the end, only such variables are wanted. -/
theorem out_of_wanted {out : String → Prop} {instrs : List Instr}
    (args : ∀ instr ∈ instrs, ∀ arg ∈ instr.args, out arg) {var : String}
    (wanted : Wanted out instrs var) : out var := by
  induction instrs with
  | nil => exact wanted
  | cons instr rest restIH =>
    rcases wanted with isArg | ⟨_, later⟩
    · exact args instr (List.mem_cons_self ..) var isArg
    · exact restIH (fun other member => args other (List.mem_cons_of_mem _ member)) later

end Instr

/-- An instruction runs alike where its arguments have the same values under other names, and its
result is carried over under its new name. -/
theorem Env.Carries.exec {base after : String → Prop} {change : String → String} {env mirror : Env}
    {machine : Machine} {calls : Calls} {instr : Instr} {lines : List String} {next : State}
    {control : Control} (carries : Carries base change env mirror)
    (args : ∀ arg ∈ instr.args, base arg)
    (ran : instr.exec machine calls ⟨env, lines⟩ = some (next, control))
    (subset : ∀ var, after var → instr.dest? ≠ some var → base var)
    (apart : ∀ dest, instr.dest? = some dest → ∀ var, after var → var ≠ dest →
      change var ≠ change dest) :
    ∃ last, ((instr.mapArgs change).mapDest change).exec machine calls ⟨mirror, lines⟩ =
      some (⟨last, next.lines⟩, control) ∧ Carries after change next.env last := by
  obtain ⟨effect, rfl, rfl, hasValue, mirrored⟩ := Instr.exec_of_perform_eq
    ((instr.mapArgs change).mapDest change) mirror ran
    (fun values => by
      rw [Instr.mapDest, Action.perform_mapDest]
      exact Instr.perform_mapArgs _ _ machine calls values)
    (fun values found => by
      rw [Instr.reads_mapDest, Instr.reads_mapArgs]
      exact Env.read_map (fun var member => carries var
        (args var (Instr.mem_args_of_mem_reads member))) found)
  refine ⟨_, mirrored, ?_⟩
  rw [Instr.dest?_mapDest, Instr.dest?_mapArgs]
  cases isDest : instr.dest? with
  | none => exact carries.mono fun var isWanted => subset var isWanted (by simp [isDest])
  | some dest =>
    rw [isDest] at hasValue
    obtain ⟨value, isValue⟩ := Option.isSome_iff_exists.1 hasValue
    simp only [State.after, isValue, Option.map_some]
    refine carries.set (fun var isWanted isOther => subset var isWanted ?_) (apart dest isDest) value
    rw [isDest]
    exact fun same => isOther (Option.some.inj same).symm

/-- An instruction runs alike where its arguments have the same values. -/
theorem Env.Carries.exec_same {base after : String → Prop} {env mirror : Env} {machine : Machine}
    {calls : Calls} {instr : Instr} {lines : List String} {next : State} {control : Control}
    (carries : Carries base id env mirror) (args : ∀ arg ∈ instr.args, base arg)
    (ran : instr.exec machine calls ⟨env, lines⟩ = some (next, control))
    (subset : ∀ var, after var → instr.dest? ≠ some var → base var) :
    ∃ last, instr.exec machine calls ⟨mirror, lines⟩ = some (⟨last, next.lines⟩, control) ∧
      Carries after id next.env last := by
  obtain ⟨last, mirrored, carried⟩ := carries.exec args ran subset fun _ _ _ _ isOther => isOther
  exact ⟨last, by rwa [Instr.mapArgs_id, Instr.mapDest_id] at mirrored, carried⟩

/-- Instructions run alike where all their arguments have the same values. -/
theorem Env.Carries.execAll_same {base : String → Prop} {env mirror : Env} {machine : Machine}
    {calls : Calls} {instrs : List Instr} {lines : List String} {next : State} {control : Control}
    (carries : Carries base id env mirror) (args : ∀ instr ∈ instrs, ∀ arg ∈ instr.args, base arg)
    (ran : Instr.execAll machine calls instrs ⟨env, lines⟩ = some (next, control)) :
    ∃ last, Instr.execAll machine calls instrs ⟨mirror, lines⟩ =
      some (⟨last, next.lines⟩, control) ∧ Carries base id next.env last := by
  induction instrs generalizing env mirror lines with
  | nil =>
    obtain ⟨rfl, rfl⟩ := Prod.mk.inj (Option.some.inj ran)
    exact ⟨mirror, rfl, carries⟩
  | cons instr rest restIH =>
    rw [Instr.execAll_cons] at ran
    obtain ⟨⟨⟨between, printed⟩, goes⟩, first, ran⟩ := Option.bind_eq_some_iff.1 ran
    obtain ⟨middle, mirrored, carried⟩ := carries.exec_same (args instr (List.mem_cons_self ..))
      first fun _ isBase _ => isBase
    rw [Instr.execAll_cons, mirrored, Option.bind_some]
    dsimp only at ran ⊢
    split at ran
    · rename_i goesOn
      rw [if_pos goesOn]
      exact restIH carried (fun other member => args other (List.mem_cons_of_mem _ member)) ran
    · rename_i stops
      rw [if_neg stops]
      obtain ⟨rfl, rfl⟩ := Prod.mk.inj (Option.some.inj ran)
      exact ⟨middle, rfl, carried⟩

end Midend
