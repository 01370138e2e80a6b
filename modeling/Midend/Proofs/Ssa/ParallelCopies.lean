import Midend.Proofs.FlowGraph.Recast
import Midend.Proofs.Fresh
import Midend.Proofs.Semantics.Simulation
import Midend.Ssa.Destruct

/-! # Parallel copies in order

Copies that belong together read all their sources before any target is written. Put in order, one
after another, they come to the same (`Ssa.execAll_sequentialize`): a copy is made when nothing
still to be read is lost by it, and a target that is still read is saved in a temporary first
(`Ssa.Orders`). -/

namespace Midend

/-- A list with an element of a kind ends in the last such element and others. -/
theorem exists_last {α : Type} (kind : α → Prop) {list : List α}
    (found : ∃ element ∈ list, kind element) : ∃ front last back, list = front ++ last :: back ∧
      kind last ∧ ∀ other ∈ back, ¬kind other := by
  induction list with
  | nil => simp at found
  | cons head tail tailIH =>
    by_cases inTail : ∃ element ∈ tail, kind element
    · obtain ⟨front, last, back, rfl, isKind, others⟩ := tailIH inTail
      exact ⟨head :: front, last, back, rfl, isKind, others⟩
    · simp only [not_exists, not_and] at inTail
      obtain ⟨element, member, isKind⟩ := found
      rcases List.mem_cons.1 member with rfl | isLater
      · exact ⟨[], element, tail, rfl, isKind, inTail⟩
      · exact absurd isKind (inTail element isLater)

/-- Two variables may be written in either order. -/
theorem Env.set_comm (env : Env) {left right : String} (apart : left ≠ right)
    (first second : Value) :
    (env.set left first).set right second = (env.set right second).set left first := by
  funext var
  unfold Env.set
  split
  · rename_i isRight
    rw [if_neg fun isLeft => apart (isLeft.symm.trans isRight)]
  · rfl

/-- A write may be made before others that are of other variables. -/
theorem Env.assign_move (env : Env) {left : List (String × Value)} {write : String × Value}
    (apart : ∀ other ∈ left, other.1 ≠ write.1) (right : List (String × Value)) :
    env.assign (left ++ write :: right) = (env.set write.1 write.2).assign (left ++ right) := by
  induction left generalizing env with
  | nil => rfl
  | cons first rest restIH =>
    rw [List.cons_append, assign_cons, restIH _ fun other member =>
      apart other (List.mem_cons_of_mem _ member), List.cons_append, assign_cons,
      set_comm _ (apart first (List.mem_cons_self ..))]

namespace Ssa

/-! ## Copies -/

/-- What copies write when they are made at once. -/
def Copies (env : Env) : List Copy → List (String × Value) → Prop :=
  List.Forall₂ fun copy write => copy.dest = write.1 ∧ env copy.src = some write.2

/-- Copies can be made where their sources have values. -/
theorem Copies.exists_writes {copies : List Copy} {env : Env}
    (held : ∀ copy ∈ copies, (env copy.src).isSome) : ∃ writes, Copies env copies writes := by
  have all : ∀ copy ∈ copies, ∃ write, (env copy.src).map (copy.dest, ·) = some write := by
    intro copy member
    obtain ⟨value, isValue⟩ := Option.isSome_iff_exists.1 (held copy member)
    exact ⟨(copy.dest, value), by rw [isValue, Option.map_some]⟩
  obtain ⟨writes, found⟩ := exists_mapM all
  refine ⟨writes, (mapM_eq_some_iff.1 found).imp fun copy write isWrite => ?_⟩
  obtain ⟨value, isValue, rfl⟩ := Option.map_eq_some_iff.1 isWrite
  exact ⟨rfl, isValue⟩

/-- Copies write their targets. -/
theorem Copies.map_dest {copies : List Copy} {env : Env} {writes : List (String × Value)}
    (written : Copies env copies writes) : writes.map Prod.fst = copies.map Copy.dest :=
  map_eq_of_forall₂ written fun _ _ isWrite => isWrite.1.symm

/-- Copies write alike where their sources have the same values. -/
theorem Copies.of_agree {copies : List Copy} {env other : Env} {writes : List (String × Value)}
    (written : Copies env copies writes)
    (agree : ∀ copy ∈ copies, other copy.src = env copy.src) : Copies other copies writes :=
  forall₂_imp_of_mem written fun copy member _ isWrite =>
    ⟨isWrite.1, (agree copy member).trans isWrite.2⟩

/-- A copy gives its target the value of its source. -/
theorem exec_copy (machine : Machine) (calls : Calls) {env : Env} (lines : List String)
    {source : String} {value : Value} (held : env source = some value) (dest : String) (ty : Ty) :
    (Instr.copy dest ty source).exec machine calls ⟨env, lines⟩ =
      some (⟨env.set dest value, lines⟩, .next) := by
  simp [Instr.exec, Instr.reads, Instr.copy, Instr.compute, Action.reads, Action.perform,
    Action.performCompute, State.after, Instr.dest?, Action.dest?, Env.read, held]

/-! ## Steps -/

/-- A copy that is ready: nothing reads its target, and none before it writes its target. -/
theorem exists_of_readyCopy? {pending : List Copy} {place : Nat}
    (found : readyCopy? pending = some place) :
    ∃ front copy back, pending = front ++ copy :: back ∧ place = front.length ∧
      (∀ other ∈ pending, other.src ≠ copy.dest) ∧ ∀ other ∈ front, other.dest ≠ copy.dest := by
  obtain ⟨bound, ready, earlier⟩ := List.findIdx?_eq_some_iff_getElem.1 found
  have unread : ∀ other ∈ pending, other.src ≠ pending[place].dest := by
    simpa using ready
  refine ⟨pending.take place, pending[place], pending.drop (place + 1), ?_, ?_, unread, ?_⟩
  · rw [List.getElem_cons_drop, List.take_append_drop]
  · rw [List.length_take]
    omega
  · -- One before it with the same target would have been ready.
    intro other member same
    obtain ⟨index, below, isOther⟩ := List.mem_take_iff_getElem.1 member
    have notReady := earlier index (by omega)
    rw [isOther, same] at notReady
    exact notReady ready

/-- Nothing reads the target of the first copy that is ready, and none before it writes it. -/
theorem unread_of_readyCopy? {front back : List Copy} {copy : Copy}
    (found : readyCopy? (front ++ copy :: back) = some front.length) :
    (∀ other ∈ front ++ copy :: back, other.src ≠ copy.dest) ∧
      ∀ other ∈ front, other.dest ≠ copy.dest := by
  obtain ⟨front', copy', back', split, sameLength, unread, apart⟩ := exists_of_readyCopy? found
  obtain ⟨rfl, sameRest⟩ := List.append_inj split sameLength
  obtain ⟨rfl, rfl⟩ := List.cons.inj sameRest
  exact ⟨unread, apart⟩

/-- Where no copy is ready, the first one's target is read. -/
theorem exists_reader {first : Copy} {rest : List Copy}
    (notFound : readyCopy? (first :: rest) = none) :
    ∃ reader ∈ first :: rest, reader.src = first.dest := by
  have notReady := List.findIdx?_eq_none_iff.1 notFound first (List.mem_cons_self ..)
  rw [Bool.not_eq_false', List.any_eq_true] at notReady
  obtain ⟨reader, inside, reads⟩ := notReady
  exact ⟨reader, inside, by simpa using reads⟩

/-- Where nothing reads the target of a copy, some copy is ready. -/
theorem isSome_readyCopy? {pending : List Copy} {copy : Copy} (member : copy ∈ pending)
    (unread : ∀ other ∈ pending, other.src ≠ copy.dest) : (readyCopy? pending).isSome := by
  rw [readyCopy?, List.findIdx?_isSome, List.any_eq_true]
  exact ⟨copy, member, by simpa using unread⟩

/-- Making a ready copy first comes to the same. -/
theorem Copies.make {front back : List Copy} {copy : Copy} {env : Env}
    {writes : List (String × Value)} (written : Copies env (front ++ copy :: back) writes)
    (unread : ∀ other ∈ front ++ back, other.src ≠ copy.dest)
    (apart : ∀ other ∈ front, other.dest ≠ copy.dest) :
    ∃ value others, env copy.src = some value ∧
      Copies (env.set copy.dest value) (front ++ back) others ∧
      (env.set copy.dest value).assign others = env.assign writes := by
  obtain ⟨early, late, rfl, inFront, inRest⟩ := exists_split_of_forall₂ written
  obtain ⟨⟨dest, value⟩, later, ⟨rfl, held⟩, inBack, rfl⟩ := List.forall₂_cons_left_iff.1 inRest
  refine ⟨value, early ++ later, held, ?_, ?_⟩
  · exact Copies.of_agree (List.rel_append inFront inBack) fun other member =>
      Env.set_of_ne _ _ (unread other member)
  · refine (@Env.assign_move env early (copy.dest, value) (fun write member => ?_) later).symm
    obtain ⟨other, isOther, isDest, _⟩ := exists_of_forall₂_right inFront member
    rw [← isDest]
    exact apart other isOther

/-- Copies with the readers of one variable redirected to another one. -/
def redirect (old new : String) (copies : List Copy) : List Copy :=
  copies.map fun copy => if copy.src = old then { copy with src := new } else copy

/-- A redirected copy has its old target, and reads the new variable or what it read. -/
theorem mem_redirect {old new : String} {copies : List Copy} {copy : Copy}
    (member : copy ∈ redirect old new copies) :
    ∃ original ∈ copies, copy.dest = original.dest ∧
      (copy.src = new ∨ (copy.src = original.src ∧ original.src ≠ old)) := by
  obtain ⟨original, inside, rfl⟩ := List.mem_map.1 member
  refine ⟨original, inside, ?_⟩
  split
  · exact ⟨rfl, .inl rfl⟩
  · rename_i apart
    exact ⟨rfl, .inr ⟨rfl, apart⟩⟩

/-- Redirected copies have their targets. -/
theorem map_dest_redirect (old new : String) (copies : List Copy) :
    (redirect old new copies).map Copy.dest = copies.map Copy.dest := by
  rw [redirect, List.map_map]
  refine List.map_congr_left fun copy _ => ?_
  rw [Function.comp_apply]
  split <;> rfl

/-- A temporary has more letters than what it is named after. -/
theorem fresh_ne (names : NameSupply) (stem : String) : (names.fresh (stem ++ ".tmp")).1 ≠ stem := by
  intro same
  have longer := congrArg String.length same
  have letters : ".tmp".length = 4 := rfl
  simp only [NameSupply.fresh, numbered, String.length_append] at longer
  omega

/-- Once its target is saved, the first copy is ready. -/
theorem isSome_readyCopy?_redirect (first : Copy) (rest : List Copy) {temporary : String}
    (fresh : temporary ≠ first.dest) :
    (readyCopy? (redirect first.dest temporary (first :: rest))).isSome := by
  have inside : (if first.src = first.dest then { first with src := temporary } else first) ∈
      redirect first.dest temporary (first :: rest) := List.mem_cons_self ..
  refine isSome_readyCopy? inside fun other member => ?_
  have sameDest : (if first.src = first.dest then { first with src := temporary }
      else first).dest = first.dest := by
    split <;> rfl
  rw [sameDest]
  obtain ⟨original, _, _, isNew | ⟨isOld, apart⟩⟩ := mem_redirect member
  · rwa [isNew]
  · rwa [isOld]

/-- Redirected copies write the same where the new variable holds what the old one held. -/
theorem Copies.redirect {copies : List Copy} {env : Env} {writes : List (String × Value)}
    {old new : String} {value : Value} (written : Copies env copies writes)
    (held : env old = some value) (fresh : ∀ copy ∈ copies, copy.src ≠ new) :
    Copies (env.set new value) (redirect old new copies) writes := by
  refine List.forall₂_map_left_iff.2 (forall₂_imp_of_mem written ?_)
  rintro copy member write ⟨isDest, isValue⟩
  split
  · rename_i isOld
    rw [isOld, held] at isValue
    exact ⟨isDest, by rw [Env.set_self, isValue]⟩
  · exact ⟨isDest, by rw [Env.set_of_ne _ _ (fresh copy member), isValue]⟩

/-! ## The order -/

/-- How pending copies are put in order, however many steps that takes, with the supplies of names
before and after. -/
inductive Orders : List Copy → NameSupply → List Instr → NameSupply → Prop where
  /-- Nothing is pending. -/
  | done {names : NameSupply} : Orders [] names [] names
  /-- The first ready copy is made. -/
  | make {front back : List Copy} {copy : Copy} {names after : NameSupply} {instrs : List Instr} :
      readyCopy? (front ++ copy :: back) = some front.length →
      Orders (front ++ back) names instrs after →
        Orders (front ++ copy :: back) names (Instr.copy copy.dest copy.ty copy.src :: instrs) after
  /-- No copy is ready: the first one's target is saved for its readers. -/
  | save {first : Copy} {rest : List Copy} {names after : NameSupply} {instrs : List Instr} :
      readyCopy? (first :: rest) = none →
        Orders (redirect first.dest (names.fresh (first.dest ++ ".tmp")).1 (first :: rest))
          (names.fresh (first.dest ++ ".tmp")).2 instrs after →
        Orders (first :: rest) names
          (Instr.copy (names.fresh (first.dest ++ ".tmp")).1 first.ty first.dest :: instrs) after

/-- A step of the ordering that makes a ready copy. -/
theorem sequentializeFrom_make {front back : List Copy} {copy : Copy}
    (found : readyCopy? (front ++ copy :: back) = some front.length) (budget : Nat)
    (names : NameSupply) :
    sequentializeFrom (budget + 1) (front ++ copy :: back) names =
      (Instr.copy copy.dest copy.ty copy.src :: (sequentializeFrom budget (front ++ back) names).1,
        (sequentializeFrom budget (front ++ back) names).2) := by
  obtain ⟨first, rest, isCons⟩ := List.exists_cons_of_ne_nil
    (List.append_ne_nil_of_right_ne_nil front (List.cons_ne_nil copy back))
  rw [isCons, sequentializeFrom, ← isCons]
  simp only [found]
  rw [List.getD_append_right _ _ _ _ (Nat.le_refl _), Nat.sub_self, List.getD_cons_zero,
    List.eraseIdx_append_of_length_le (Nat.le_refl _), Nat.sub_self, List.eraseIdx_zero,
    List.tail_cons]

/-- A step of the ordering that saves a target. -/
theorem sequentializeFrom_save {first : Copy} {rest : List Copy}
    (notFound : readyCopy? (first :: rest) = none) (budget : Nat) (names : NameSupply) :
    sequentializeFrom (budget + 1) (first :: rest) names =
      (Instr.copy (names.fresh (first.dest ++ ".tmp")).1 first.ty first.dest ::
          (sequentializeFrom budget (redirect first.dest (names.fresh (first.dest ++ ".tmp")).1
            (first :: rest)) (names.fresh (first.dest ++ ".tmp")).2).1,
        (sequentializeFrom budget (redirect first.dest (names.fresh (first.dest ++ ".tmp")).1
          (first :: rest)) (names.fresh (first.dest ++ ".tmp")).2).2) := by
  rw [sequentializeFrom]
  simp only [notFound]
  rfl

/-- Copies are ordered within two steps for each: saving its target makes a copy ready, and then it is
made. -/
theorem orders_sequentializeFrom {budget : Nat} {pending : List Copy} (names : NameSupply)
    (enough : 2 * pending.length ≤ budget ∨
      (readyCopy? pending).isSome ∧ 2 * pending.length ≤ budget + 1) :
    Orders pending names (sequentializeFrom budget pending names).1
      (sequentializeFrom budget pending names).2 := by
  induction budget generalizing pending names with
  | zero =>
    obtain rfl : pending = [] := List.eq_nil_of_length_eq_zero (by omega)
    exact .done
  | succ budget budgetIH =>
    cases pending with
    | nil => exact .done
    | cons first rest =>
      cases found : readyCopy? (first :: rest) with
      | some place =>
        obtain ⟨front, copy, back, split, rfl, _⟩ := exists_of_readyCopy? found
        rw [split] at found enough ⊢
        rw [List.length_append, List.length_cons] at enough
        rw [sequentializeFrom_make found]
        exact .make found (budgetIH names (.inl (by rw [List.length_append]; omega)))
      | none =>
        rw [found] at enough
        have short := enough.resolve_right fun impossible => by cases impossible.1
        rw [sequentializeFrom_save found]
        refine .save found (budgetIH _ (.inr ⟨?_, by rw [redirect, List.length_map]; exact short⟩))
        exact isSome_readyCopy?_redirect first rest (fresh_ne names first.dest)

namespace Orders

variable {base : String → Prop} {stems : String → Prop} {pending : List Copy}
  {names after : NameSupply} {instrs : List Instr}

/-- With as many steps as there are instructions the order is found. -/
theorem sequentializeFrom_eq (ordered : Orders pending names instrs after) {budget : Nat}
    (enough : instrs.length ≤ budget) :
    sequentializeFrom budget pending names = (instrs, after) := by
  induction ordered generalizing budget with
  | done => cases budget <;> rfl
  | make found _ restIH =>
    obtain ⟨less, rfl⟩ := Nat.exists_eq_add_of_lt enough
    rw [sequentializeFrom_make found, restIH (by omega)]
  | save notFound _ restIH =>
    obtain ⟨less, rfl⟩ := Nat.exists_eq_add_of_lt enough
    rw [sequentializeFrom_save notFound, restIH (by omega)]

/-- Copies in order give variables the values that they get when all copies are made at once;
temporaries are no such variables. -/
theorem execAll (ordered : Orders pending names instrs after) (machine : Machine) (calls : Calls)
    (apart : ∀ name, base name → name ∈ names.taken ∨
      ∀ stem number, name ≠ numbered (stem ++ ".tmp") "." number)
    (sources : ∀ copy ∈ pending, base copy.src ∨ copy.src ∈ names.taken) {env : Env}
    (lines : List String) {writes : List (String × Value)} (written : Copies env pending writes) :
    ∃ last, Instr.execAll machine calls instrs ⟨env, lines⟩ = some (⟨last, lines⟩, .next) ∧
      ∀ var, base var → last var = env.assign writes var := by
  induction ordered generalizing env writes with
  | done =>
    cases written
    exact ⟨env, rfl, fun _ _ => rfl⟩
  | @make front back copy _ _ _ found _ restIH =>
    obtain ⟨unread, notWritten⟩ := unread_of_readyCopy? found
    have kept : ∀ {other}, other ∈ front ++ back → other ∈ front ++ copy :: back := fun member =>
      (List.sublist_cons_self copy back).append_left front |>.subset member
    obtain ⟨value, others, held, writtenRest, assign_eq⟩ :=
      written.make (fun other member => unread other (kept member)) notWritten
    obtain ⟨last, ran, holds⟩ :=
      restIH apart (fun other member => sources other (kept member)) writtenRest
    exact ⟨last, Instr.execAll_cons_next_iff.2 ⟨_, exec_copy machine calls lines held _ _, ran⟩,
      fun var isBase => by rw [holds var isBase, assign_eq]⟩
  | @save first rest names _ _ notFound _ restIH =>
    obtain ⟨⟨number, isNumbered⟩, fresh, taken⟩ := names.fresh_spec (first.dest ++ ".tmp")
    generalize (names.fresh (first.dest ++ ".tmp")).1 = saved at isNumbered fresh taken restIH ⊢
    have notBase : ¬base saved := fun isBase =>
      (apart saved isBase).elim fresh fun other => other _ _ isNumbered
    -- The target has a value, since it is read.
    obtain ⟨reader, inside, reads⟩ := exists_reader notFound
    obtain ⟨⟨_, value⟩, _, _, held⟩ := exists_of_forall₂_left written inside
    rw [reads] at held
    have unsaved : ∀ copy ∈ first :: rest, copy.src ≠ saved := fun copy member same =>
      (sources copy member).elim (fun isBase => notBase (same ▸ isBase))
        fun isTaken => fresh (same ▸ isTaken)
    obtain ⟨last, ran, holds⟩ := restIH
      (fun name isBase => (apart name isBase).imp_left fun isTaken => (taken _).2 (.inr isTaken))
      (fun copy member => by
        obtain ⟨original, isOriginal, _, isSaved | ⟨isSource, _⟩⟩ := mem_redirect member
        · exact .inr ((taken _).2 (.inl isSaved))
        · rw [isSource]
          exact (sources original isOriginal).imp_right fun isTaken => (taken _).2 (.inr isTaken))
      (written.redirect held unsaved)
    refine ⟨last, Instr.execAll_cons_next_iff.2 ⟨_, exec_copy machine calls lines held _ _, ran⟩,
      fun var isBase => ?_⟩
    rw [holds var isBase]
    refine Env.assign_congr (Env.set_of_ne _ _ ?_) writes
    rintro rfl
    exact notBase isBase

/-- Ordered copies write their targets and temporaries. -/
theorem dests (ordered : Orders pending names instrs after)
    (stemmed : ∀ copy ∈ pending, stems (copy.dest ++ ".tmp")) :
    ∃ temporaries, (instrs.filterMap Instr.dest?).Perm (pending.map Copy.dest ++ temporaries) ∧
      NameSupply.Supplied stems names temporaries after := by
  induction ordered with
  | done => exact ⟨[], .refl _, .nil _⟩
  | @make front back copy _ _ _ _ _ restIH =>
    -- A copy whose target no other copy reads is written, and the others remain.
    obtain ⟨temporaries, written, supplied⟩ := restIH fun other member => stemmed other
      ((List.sublist_cons_self copy back).append_left front |>.subset member)
    have moved : ((front ++ copy :: back).map Copy.dest).Perm
        (copy.dest :: (front ++ back).map Copy.dest) := List.perm_middle.map Copy.dest
    exact ⟨temporaries, (written.cons copy.dest).trans (moved.symm.append_right temporaries),
      supplied⟩
  | @save first rest names _ _ _ _ restIH =>
    obtain ⟨temporaries, written, supplied⟩ := restIH fun copy member => by
      obtain ⟨original, isOriginal, isDest, _⟩ := mem_redirect member
      exact isDest ▸ stemmed original isOriginal
    rw [map_dest_redirect] at written
    exact ⟨_ :: temporaries, (written.cons _).trans List.perm_middle.symm,
      (NameSupply.Supplied.one names (stemmed first (List.mem_cons_self ..))).append supplied⟩

end Orders

/-- The copies that are put in order: those of a variable to itself are left out. -/
theorem orders_sequentialize (copies : List Copy) (names : NameSupply) :
    Orders (copies.filter fun copy => copy.dest ≠ copy.src) names (sequentialize copies names).1
      (sequentialize copies names).2 := orders_sequentializeFrom names (.inl (Nat.le_refl _))

/-! ## Runs -/

/-- Copies whose effect is that of those which do not copy a variable to itself: if the last copy of a
variable does, then so do the others. -/
def SteadyCopies (copies : List Copy) : Prop :=
  ∀ front last back, copies = front ++ last :: back → (∀ other ∈ back, other.dest ≠ last.dest) →
    last.dest = last.src → ∀ other ∈ front, other.dest = last.dest → other.dest = other.src

/-- Copies to distinct variables are steady. -/
theorem steadyCopies_of_nodup {copies : List Copy} (distinct : (copies.map Copy.dest).Nodup) :
    SteadyCopies copies := by
  rintro front last back rfl _ _ other member same
  rw [List.map_append, List.nodup_append] at distinct
  exact absurd same (distinct.2.2 _ (List.mem_map_of_mem member) _ (List.mem_cons_self ..))

/-- A variable gets the value that the last copy of it reads. -/
theorem Copies.assign_last {front back : List Copy} {last : Copy} {env : Env}
    {writes : List (String × Value)} (written : Copies env (front ++ last :: back) writes)
    (later : ∀ other ∈ back, other.dest ≠ last.dest) :
    env.assign writes last.dest = env last.src := by
  obtain ⟨early, late, rfl, _, inRest⟩ := exists_split_of_forall₂ written
  obtain ⟨⟨dest, value⟩, rest, ⟨rfl, held⟩, inBack, rfl⟩ := List.forall₂_cons_left_iff.1 inRest
  rw [held]
  refine Env.assign_of_last env early value ?_
  rw [Copies.map_dest inBack, List.mem_map]
  rintro ⟨other, member, same⟩
  exact later other member same

/-- Copies of variables to themselves need not be made, unless they take back what a copy before
them writes. -/
theorem Copies.exists_filter {copies : List Copy} {env : Env} {writes : List (String × Value)}
    (written : Copies env copies writes) (steady : SteadyCopies copies) :
    ∃ others, Copies env (copies.filter fun copy => copy.dest ≠ copy.src) others ∧
      env.assign others = env.assign writes := by
  have reads : ∀ copy ∈ copies.filter fun copy => copy.dest ≠ copy.src,
      (env copy.src).isSome = true := by
    intro copy member
    obtain ⟨write, _, _, isValue⟩ := exists_of_forall₂_left written (List.mem_of_mem_filter member)
    rw [isValue]
    rfl
  obtain ⟨others, filtered⟩ := Copies.exists_writes reads
  refine ⟨others, filtered, funext fun var => ?_⟩
  by_cases kept : ∀ copy ∈ copies, copy.dest = var → copy.dest = copy.src
  · -- All copies of the variable are of it to itself.
    rw [Env.assign_of_notMem, Env.assign_of_held]
    · intro write member isVar
      obtain ⟨copy, inside, isDest, isValue⟩ := exists_of_forall₂_right written member
      have same := isDest.trans isVar
      rwa [← same, kept copy inside same]
    · rw [filtered.map_dest, List.mem_map]
      rintro ⟨copy, member, isVar⟩
      obtain ⟨inside, differs⟩ := List.mem_filter.1 member
      exact of_decide_eq_true differs (kept copy inside isVar)
  · -- The last copy of the variable is made, since otherwise it would take back another one.
    simp only [not_forall] at kept
    obtain ⟨copy, member, isVar, differs⟩ := kept
    obtain ⟨front, last, back, rfl, rfl, later⟩ :=
      exists_last (fun copy => copy.dest = var) ⟨copy, member, isVar⟩
    have lastDiffers : last.dest ≠ last.src := by
      intro same
      rcases List.mem_append.1 member with inFront | inRest
      · exact differs (steady front last back rfl later same copy inFront isVar)
      · rcases List.mem_cons.1 inRest with rfl | inBack
        · exact differs same
        · exact later copy inBack isVar
    rw [written.assign_last later]
    rw [List.filter_append, List.filter_cons_of_pos (by simpa using lastDiffers)] at filtered
    exact filtered.assign_last fun other inBack => later other (List.mem_of_mem_filter inBack)

/-- Copies in order give variables the values that they get when all copies are made at once. -/
theorem execAll_sequentialize {base : String → Prop} (machine : Machine) (calls : Calls)
    {copies : List Copy} (names : NameSupply)
    (apart : ∀ name, base name → name ∈ names.taken ∨
      ∀ stem number, name ≠ numbered (stem ++ ".tmp") "." number) {env : Env} (lines : List String)
    {writes : List (String × Value)} (sources : ∀ copy ∈ copies, base copy.src)
    (steady : SteadyCopies copies) (written : Copies env copies writes) :
    ∃ last, Instr.execAll machine calls (sequentialize copies names).1 ⟨env, lines⟩ =
        some (⟨last, lines⟩, .next) ∧
      ∀ var, base var → last var = env.assign writes var := by
  obtain ⟨others, filtered, assign_eq⟩ := written.exists_filter steady
  rw [← assign_eq]
  exact (orders_sequentialize copies names).execAll machine calls apart
    (fun copy member => .inl (sources copy (List.mem_of_mem_filter member))) lines filtered

/-! ## The instructions -/

/-- Ordered copies are copies, no more than there are steps. -/
theorem sequentializeFrom_spec (budget : Nat) (pending : List Copy) (names : NameSupply) :
    (sequentializeFrom budget pending names).1.length ≤ budget ∧
      ∀ instr ∈ (sequentializeFrom budget pending names).1,
        ∃ dest ty source, instr = Instr.copy dest ty source := by
  induction budget generalizing pending names with
  | zero => exact ⟨Nat.le_refl _, nofun⟩
  | succ budget budgetIH =>
    cases pending with
    | nil => exact ⟨Nat.zero_le _, nofun⟩
    | cons first rest =>
      rw [sequentializeFrom]
      -- A step puts one copy in front of what the later steps give.
      have step : ∀ {instrs : List Instr} (copy : Copy), (instrs.length ≤ budget ∧
          ∀ instr ∈ instrs, ∃ dest ty source, instr = Instr.copy dest ty source) →
          (Instr.copy copy.dest copy.ty copy.src :: instrs).length ≤ budget + 1 ∧
            ∀ instr ∈ Instr.copy copy.dest copy.ty copy.src :: instrs,
              ∃ dest ty source, instr = Instr.copy dest ty source := by
        rintro instrs copy ⟨short, others⟩
        refine ⟨Nat.succ_le_succ short, fun instr member => ?_⟩
        rcases List.mem_cons.1 member with rfl | inRest
        · exact ⟨_, _, _, rfl⟩
        · exact others instr inRest
      split
      · exact step _ (budgetIH _ _)
      · exact step ⟨_, _, _⟩ (budgetIH _ _)

/-- Ordered copies are copies, two for each at most. -/
theorem sequentialize_spec (copies : List Copy) (names : NameSupply) :
    (sequentialize copies names).1.length ≤ 2 * copies.length ∧
      ∀ instr ∈ (sequentialize copies names).1,
        ∃ dest ty source, instr = Instr.copy dest ty source := by
  obtain ⟨short, areCopies⟩ := sequentializeFrom_spec
    (2 * (copies.filter fun copy => copy.dest ≠ copy.src).length) _ names
  refine ⟨short.trans (Nat.mul_le_mul_left 2 (List.length_filter_le _ _)), areCopies⟩

/-- Copies with distinct targets can be put in order in exactly one way. The instructions are copies
that write the targets, but for those of a variable to itself, and new temporaries, and nothing else.
Wherever the sources have values they run through and give every target the value that its source
had before. -/
theorem sequentialize_simultaneous {copies : List Copy} {names : NameSupply}
    (distinct : (copies.map Copy.dest).Nodup)
    (taken : ∀ copy ∈ copies, copy.dest ∈ names.taken ∧ copy.src ∈ names.taken) :
    (∀ instrs after, Orders (copies.filter fun copy => copy.dest ≠ copy.src) names instrs after ↔
      sequentialize copies names = (instrs, after)) ∧
    (∀ instr ∈ (sequentialize copies names).1, ∃ dest ty source, instr = Instr.copy dest ty source) ∧
    ∃ temporaries, temporaries.Nodup ∧ (∀ temporary ∈ temporaries, temporary ∉ names.taken) ∧
      ((sequentialize copies names).1.filterMap Instr.dest?).Perm
        ((copies.filter fun copy => copy.dest ≠ copy.src).map Copy.dest ++ temporaries) ∧
      ∀ (machine : Machine) (calls : Calls) (env : Env) (lines : List String),
        (∀ copy ∈ copies, (env copy.src).isSome) →
        ∃ last, Instr.execAll machine calls (sequentialize copies names).1 ⟨env, lines⟩ =
            some (⟨last, lines⟩, .next) ∧
          (∀ copy ∈ copies, last copy.dest = env copy.src) ∧
          ∀ var, var ∉ copies.map Copy.dest → var ∉ temporaries → last var = env var := by
  have ordered := orders_sequentialize copies names
  refine ⟨fun instrs after => ⟨fun other => ?_, fun same => ?_⟩, (sequentialize_spec copies names).2, ?_⟩
  · -- With enough steps for both, the two orders are the same.
    have atLeft := ordered.sequentializeFrom_eq (Nat.le_add_right _ instrs.length)
    exact atLeft.symm.trans (other.sequentializeFrom_eq (Nat.le_add_left _ _))
  · rw [same] at ordered
    exact ordered
  · obtain ⟨temporaries, written, supplied⟩ :=
      @Orders.dests (fun _ => True) _ _ _ _ ordered fun _ _ => trivial
    have kept : ∀ name, name ∈ names.taken → name ∈ names.taken ∨
        ∀ stem number, name ≠ numbered (stem ++ ".tmp") "." number := fun _ => .inl
    refine ⟨temporaries, supplied.nodup, supplied.notMem, written,
      fun machine calls env lines held => ?_⟩
    obtain ⟨writes, isWritten⟩ := Copies.exists_writes held
    obtain ⟨last, ran, holds⟩ := execAll_sequentialize machine calls names kept lines
      (fun copy member => (taken copy member).2) (steadyCopies_of_nodup distinct) isWritten
    refine ⟨last, ran, fun copy member => ?_, fun var notDest notTemporary => ?_⟩
    · obtain ⟨⟨dest, value⟩, isWrite, isDest, isValue⟩ := exists_of_forall₂_left isWritten member
      rw [holds _ (taken copy member).1, isDest, isValue]
      exact Env.assign_of_mem (isWritten.map_dest ▸ distinct) isWrite env
    · refine Instr.execAll_unwritten ran fun isWrite => ?_
      rcases List.mem_append.1 (written.subset isWrite) with isDest | isTemporary
      · obtain ⟨copy, member, rfl⟩ := List.mem_map.1 isDest
        exact notDest (List.mem_map_of_mem (List.mem_of_mem_filter member))
      · exact notTemporary isTemporary

/-- Two variables are exchanged while a third one takes the value of one of them and a fourth one
keeps its own: one temporary breaks the cycle up. -/
theorem sequentialize_simultaneous_exchange :
    let copies : List Copy := [⟨"x", "y", .int⟩, ⟨"y", "x", .int⟩, ⟨"z", "x", .int⟩, ⟨"w", "w", .int⟩]
    let names : NameSupply := { taken := .ofList ["w", "x", "y", "z"] }
    (copies.map Copy.dest).Nodup ∧
      (∀ copy ∈ copies, copy.dest ∈ names.taken ∧ copy.src ∈ names.taken) ∧
      (sequentialize copies names).1 = [Instr.copy "z" .int "x", Instr.copy "x.tmp.0" .int "x",
        Instr.copy "x" .int "y", Instr.copy "y" .int "x.tmp.0"] ∧
      ∀ env : Env, (∀ copy ∈ copies, (env copy.src).isSome) →
        ∃ last, Instr.execAll .withoutFloats (fun _ _ => none) (sequentialize copies names).1 ⟨env, []⟩ =
            some (⟨last, []⟩, .next) ∧
          last "x" = env "y" ∧ last "y" = env "x" ∧ last "z" = env "x" ∧ last "w" = env "w" := by
  intro copies names
  have distinct : (copies.map Copy.dest).Nodup := by decide
  have taken : ∀ copy ∈ copies, copy.dest ∈ names.taken ∧ copy.src ∈ names.taken := by
    simp [copies, names, SortedSet.mem_ofList]
  refine ⟨distinct, taken, by decide, fun env held => ?_⟩
  obtain ⟨-, -, temporaries, -, -, -, runs⟩ := sequentialize_simultaneous distinct taken
  obtain ⟨last, ran, copied, -⟩ := runs .withoutFloats (fun _ _ => none) env [] held
  refine ⟨last, ran, ?_⟩
  simpa [copies] using copied

end Ssa

end Midend
