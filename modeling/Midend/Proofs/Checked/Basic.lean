import Midend.Error

/-! # Checked computations

An element, a slice or a difference may not be there: a place can be past the end of a list, and a
number can be less than what is taken from it. The functions of the optimizer never ask for one that
is not there, and to say so the modules of this folder describe each of them again, checking every
such step. What a checked function answers, if all its checks pass, is shown to be what the function
itself answers.

A name ending in `?` is that of a checked form. It has no answer at all when a check fails; a
computation that may also fail in the usual way, with an error, is `Checked`. -/

namespace Midend

/-- A computation that may fail with an error, and has no answer at all if a check fails. -/
abbrev Checked (α : Type) : Type := ExceptT Error Option α

namespace Checked

variable {α β σ : Type}

/-! ## Places in lists -/

/-- Replaces the element at a place, which must be there. -/
def put? (list : List α) (place : Nat) (value : α) : Option (List α) :=
  if place < list.length then some (list.set place value) else none

/-- The elements before a place, which must not be past the end. -/
def upTo? (list : List α) (place : Nat) : Option (List α) :=
  if place ≤ list.length then some (list.take place) else none

/-- The elements from a place on, which must not be past the end. -/
def onward? (list : List α) (place : Nat) : Option (List α) :=
  if place ≤ list.length then some (list.drop place) else none

/-- Puts elements in at a place, which must not be past the end. -/
def splice? (list : List α) (place : Nat) (more : List α) : Option (List α) := do
  let before ← upTo? list place
  let after ← onward? list place
  return before ++ more ++ after

/-- Takes out the element at a place, which must be there. -/
def takeOut? (list : List α) (place : Nat) : Option (α × List α) := do
  let element ← list[place]?
  return (element, list.eraseIdx place)

/-- A difference, which must not be below zero. -/
def minus? (left right : Nat) : Option Nat := if right ≤ left then some (left - right) else none

variable {list : List α} {place : Nat}

/-- An element that is there is replaced. -/
theorem put?_eq (inside : place < list.length) (value : α) :
    put? list place value = some (list.set place value) :=
  if_pos inside

/-- What is before a place inside is taken. -/
theorem upTo?_eq (inside : place ≤ list.length) : upTo? list place = some (list.take place) :=
  if_pos inside

/-- What comes from a place inside on is taken. -/
theorem onward?_eq (inside : place ≤ list.length) : onward? list place = some (list.drop place) :=
  if_pos inside

/-- Elements are put in at a place inside. -/
theorem splice?_eq (inside : place ≤ list.length) (more : List α) :
    splice? list place more = some (list.take place ++ more ++ list.drop place) := by
  rw [splice?, upTo?_eq inside, onward?_eq inside]
  rfl

/-- An element that is there is taken out. -/
theorem takeOut?_eq {element : α} (found : list[place]? = some element) :
    takeOut? list place = some (element, list.eraseIdx place) := by
  rw [takeOut?, found]
  rfl

/-- What is no more than a number can be taken from it. -/
theorem minus?_eq {left right : Nat} (fits : right ≤ left) : minus? left right = some (left - right) :=
  if_pos fits

/-- The number of elements after one was added is not zero. -/
theorem minus?_length_concat (list : List α) (last : α) :
    minus? (list ++ [last]).length 1 = some list.length := by
  rw [List.length_append, List.length_singleton, minus?_eq (Nat.le_add_left ..)]
  rfl

/-! ## Loops -/

/-- A check that passes hands its answer on. -/
theorem some_bind (value : α) (next : α → Option β) : (some value >>= next) = next value := rfl

/-- A loop whose steps all answer maps each element. -/
theorem mapM_eq_some {step? : α → Option β} {step : α → β}
    (each : ∀ element ∈ list, step? element = some (step element)) :
    list.mapM step? = some (list.map step) := by
  induction list with
  | nil => rfl
  | cons first rest restIH =>
    rw [List.forall_mem_cons] at each
    rw [List.mapM_cons, each.1, restIH each.2]
    rfl

/-- A loop that keeps an invariant under which its steps answer goes through all elements. -/
theorem foldlM_eq_some {step? : σ → α → Option σ} {step : σ → α → σ} {start : σ} (keeps : σ → Prop)
    (begins : keeps start) (each : ∀ state, keeps state → ∀ element ∈ list,
      step? state element = some (step state element) ∧ keeps (step state element)) :
    list.foldlM step? start = some (list.foldl step start) ∧ keeps (list.foldl step start) := by
  induction list generalizing start with
  | nil => exact ⟨rfl, begins⟩
  | cons first rest restIH =>
    obtain ⟨answers, kept⟩ := each start begins first (List.mem_cons_self ..)
    rw [List.foldlM_cons, answers, List.foldl_cons]
    exact restIH kept fun state keptHere element member =>
      each state keptHere element (List.mem_cons_of_mem _ member)

/-- A search whose tests all answer finds what a search finds. -/
theorem findM?_eq_some {test? : α → Option Bool} {test : α → Bool}
    (each : ∀ element ∈ list, test? element = some (test element)) :
    list.findM? test? = some (list.find? test) := by
  induction list with
  | nil => rfl
  | cons first rest restIH =>
    rw [List.forall_mem_cons] at each
    rw [List.findM?, each.1, List.find?_cons, some_bind]
    cases test first with
    | true => rfl
    | false => exact restIH each.2

/-- A filter whose tests all answer keeps what a filter keeps. -/
theorem filterM_eq_some {test? : α → Option Bool} {test : α → Bool}
    (each : ∀ element ∈ list, test? element = some (test element)) :
    list.filterM test? = some (list.filter test) := by
  have collects : ∀ kept, list.filterAuxM test? kept = some ((list.filter test).reverse ++ kept) := by
    induction list with
    | nil => exact fun _ => rfl
    | cons first rest restIH =>
      intro kept
      rw [List.forall_mem_cons] at each
      rw [List.filterAuxM, each.1, some_bind, restIH each.2,
        List.filter_cons]
      cases test first with
      | true => simp
      | false => rfl
  rw [List.filterM, collects, List.append_nil]
  exact congrArg some (List.reverse_reverse _)

/-! ## Errors -/

/-- What checks nothing. -/
def ofExcept (attempt : Except Error α) : Checked α := ExceptT.mk (some attempt)

/-- What cannot fail in the usual way. -/
def ofOption (answer : Option α) : Checked α := ExceptT.mk (answer.map .ok)

/-- What a computation answers, be it an error, once all its checks have passed. -/
def attempt (work : Checked α) : Checked (Except Error α) := ofOption work.run

/-- A check that passes has an answer. -/
theorem ofOption_some (value : α) : ofOption (some value) = ofExcept (.ok value) := rfl

/-- An answer is handed on. -/
theorem ofExcept_ok_bind (value : α) (next : α → Checked β) :
    ofExcept (.ok value) >>= next = next value := rfl

/-- Once the checks have passed, it is told what a computation answers. -/
theorem attempt_eq {work : Checked α} {answer : Except Error α}
    (passes : work = ofExcept answer) : attempt work = ofExcept (.ok answer) := by
  rw [passes]
  rfl

/-- Steps one after another pass their checks if the first does, and the next one does for what the
first answers. -/
theorem bind_eq {first? : Checked α} {first : Except Error α} {next? : α → Checked β}
    {next : α → Except Error β} (first_eq : first? = ofExcept first)
    (next_eq : ∀ value, first = .ok value → next? value = ofExcept (next value)) :
    first? >>= next? = ofExcept (first >>= next) := by
  subst first_eq
  cases first with
  | ok value => exact next_eq value rfl
  | error error => rfl

/-- Steps one after another pass their checks if the first does, and the next one does for what the
first answers; both may answer in another form. -/
theorem bind_map_eq {answer answer' : Type} {first? : Checked β} {first : Except Error α}
    {next? : β → Checked answer'} {next : α → Except Error answer} {into : α → β}
    {change : answer → answer'} (first_eq : first? = ofExcept (first.map into))
    (next_eq : ∀ value, first = .ok value →
      next? (into value) = ofExcept ((next value).map change)) :
    first? >>= next? = ofExcept ((first >>= next).map change) := by
  subst first_eq
  cases first with
  | ok value => exact next_eq value rfl
  | error error => rfl

/-- Steps one after another pass their checks if the first does, and the next one does for what the
first answers; the next one may answer in another form. -/
theorem bind_next_eq {answer answer' : Type} {first? : Checked α} {first : Except Error α}
    {next? : α → Checked answer'} {next : α → Except Error answer} {change : answer → answer'}
    (first_eq : first? = ofExcept first)
    (next_eq : ∀ value, first = .ok value → next? value = ofExcept ((next value).map change)) :
    first? >>= next? = ofExcept ((first >>= next).map change) := by
  subst first_eq
  cases first with
  | ok value => exact next_eq value rfl
  | error error => rfl

/-- A loop whose steps pass their checks maps each element, up to the first that fails. -/
theorem mapM_eq {step? : α → Checked β} {step : α → Except Error β}
    (each : ∀ element ∈ list, step? element = ofExcept (step element)) :
    list.mapM step? = ofExcept (list.mapM step) := by
  induction list with
  | nil => rfl
  | cons first rest restIH =>
    rw [List.forall_mem_cons] at each
    rw [List.mapM_cons, List.mapM_cons]
    exact bind_eq each.1 fun _ _ => bind_eq (restIH each.2) fun _ _ => rfl

/-- A loop whose steps pass their checks hands on what they answer, up to the first that fails. -/
theorem foldlM_eq {step? : σ → α → Checked σ} {step : σ → α → Except Error σ}
    (each : ∀ state, ∀ element ∈ list, step? state element = ofExcept (step state element))
    {start : σ} : list.foldlM step? start = ofExcept (list.foldlM step start) := by
  induction list generalizing start with
  | nil => rfl
  | cons first rest restIH =>
    rw [List.foldlM_cons, List.foldlM_cons]
    exact bind_eq (each start first (List.mem_cons_self ..)) fun state _ =>
      restIH fun other element member => each other element (List.mem_cons_of_mem _ member)

/-- A loop whose steps pass their checks goes through all elements, up to the first that fails. -/
theorem forM_eq {step? : α → Checked PUnit} {step : α → Except Error PUnit}
    (each : ∀ element ∈ list, step? element = ofExcept (step element)) :
    list.forM step? = ofExcept (list.forM step) := by
  induction list with
  | nil => rfl
  | cons first rest restIH =>
    rw [List.forall_mem_cons] at each
    exact bind_eq each.1 fun _ _ => restIH each.2

end Checked

end Midend
