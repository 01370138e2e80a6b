import Mathlib.Data.List.Forall2

/-! # Computations that may fail

How a computation that may fail succeeds: each of its steps does, with the answer that the next one
takes. -/

namespace Midend

namespace Attempt

variable {ε α β : Type}

/-- A sequence succeeds when its first step does and the rest does with its answer. -/
theorem bind_eq_ok {first : Except ε α} {next : α → Except ε β} {answer : β} :
    (first >>= next) = .ok answer ↔ ∃ middle, first = .ok middle ∧ next middle = .ok answer := by
  cases first with
  | error error => simp [bind, Except.bind]
  | ok middle => simp [bind, Except.bind]

/-- A sequence fails when its first step does or the rest does with its answer. -/
theorem bind_eq_error {first : Except ε α} {next : α → Except ε β} {error : ε} :
    (first >>= next) = .error error ↔
      first = .error error ∨ ∃ middle, first = .ok middle ∧ next middle = .error error := by
  cases first with
  | error error => simp [bind, Except.bind]
  | ok middle => simp [bind, Except.bind]

@[simp] theorem ok_bind (middle : α) (next : α → Except ε β) :
    ((.ok middle : Except ε α) >>= next) = next middle := rfl

@[simp] theorem error_bind (error : ε) (next : α → Except ε β) :
    ((.error error : Except ε α) >>= next) = .error error := rfl

@[simp] theorem pure_eq_ok (answer : α) : (pure answer : Except ε α) = .ok answer := rfl

@[simp] theorem throw_eq_error (error : ε) : (throw error : Except ε α) = .error error := rfl

/-- Changing the answer of a computation that succeeds. -/
theorem map_eq_ok {first : Except ε α} {change : α → β} {answer : β} :
    first.map change = .ok answer ↔ ∃ middle, first = .ok middle ∧ change middle = answer := by
  cases first with
  | error error => simp [Except.map]
  | ok middle => simp [Except.map]

/-- A list is mapped when each of its elements is. -/
theorem mapM_eq_ok {step : α → Except ε β} {list : List α} {answers : List β} :
    list.mapM step = .ok answers ↔
      List.Forall₂ (fun element answer => step element = .ok answer) list answers := by
  induction list generalizing answers with
  | nil =>
    rw [List.mapM_nil, pure_eq_ok, List.forall₂_nil_left_iff]
    simp [eq_comm]
  | cons head tail tailIH =>
    rw [List.mapM_cons, bind_eq_ok, List.forall₂_cons_left_iff]
    constructor
    · rintro ⟨answer, headOk, rest⟩
      obtain ⟨more, tailOk, same⟩ := bind_eq_ok.1 rest
      cases same
      exact ⟨answer, more, headOk, tailIH.1 tailOk, rfl⟩
    · rintro ⟨answer, more, headOk, tailOk, rfl⟩
      exact ⟨answer, headOk, bind_eq_ok.2 ⟨more, tailIH.2 tailOk, rfl⟩⟩

/-- Every element of a list that is mapped has its answer among the answers. -/
theorem exists_answer {step : α → Except ε β} {list : List α} {answers : List β}
    (mapped : list.mapM step = .ok answers) {element : α} (member : element ∈ list) :
    ∃ answer ∈ answers, step element = .ok answer := by
  rw [mapM_eq_ok] at mapped
  induction mapped with
  | nil => simp at member
  | cons headOk _ restIH =>
    rcases List.mem_cons.1 member with rfl | member
    · exact ⟨_, List.mem_cons_self .., headOk⟩
    · obtain ⟨answer, answerMem, elementOk⟩ := restIH member
      exact ⟨answer, List.mem_cons_of_mem _ answerMem, elementOk⟩

/-- Every answer for a list that is mapped is the answer for one of its elements. -/
theorem exists_element {step : α → Except ε β} {list : List α} {answers : List β}
    (mapped : list.mapM step = .ok answers) {answer : β} (member : answer ∈ answers) :
    ∃ element ∈ list, step element = .ok answer := by
  rw [mapM_eq_ok] at mapped
  induction mapped with
  | nil => simp at member
  | cons headOk _ restIH =>
    rcases List.mem_cons.1 member with rfl | member
    · exact ⟨_, List.mem_cons_self .., headOk⟩
    · obtain ⟨element, elementMem, elementOk⟩ := restIH member
      exact ⟨element, List.mem_cons_of_mem _ elementMem, elementOk⟩

/-- A list that is not mapped has an element that is not. -/
theorem exists_of_mapM_eq_error {step : α → Except ε β} {list : List α} {error : ε}
    (failed : list.mapM step = .error error) : ∃ element ∈ list, step element = .error error := by
  induction list with
  | nil => cases failed
  | cons head tail tailIH =>
    rw [List.mapM_cons, bind_eq_error] at failed
    rcases failed with headFailed | ⟨answer, _, rest⟩
    · exact ⟨head, List.mem_cons_self .., headFailed⟩
    · rcases bind_eq_error.1 rest with tailFailed | ⟨_, _, impossible⟩
      · obtain ⟨element, member, elementFailed⟩ := tailIH tailFailed
        exact ⟨element, List.mem_cons_of_mem _ member, elementFailed⟩
      · cases impossible

/-- When some element of a list fails, and all that fail do so alike, the list fails so. -/
theorem mapM_eq_error_of_mem {step : α → Except ε β} {list : List α} {error : ε}
    (alike : ∀ element other, step element = .error other → other = error) {element : α}
    (member : element ∈ list) (failed : step element = .error error) :
    list.mapM step = .error error := by
  cases mapped : list.mapM step with
  | ok answers =>
    obtain ⟨answer, _, isOk⟩ := exists_answer mapped member
    rw [failed] at isOk
    cases isOk
  | error other =>
    obtain ⟨element, _, failedToo⟩ := exists_of_mapM_eq_error mapped
    rw [alike element other failedToo]

/-- A check of all elements of a list succeeds when the check of each does. -/
theorem forM_eq_ok {check : α → Except ε Unit} {list : List α} :
    list.forM check = .ok () ↔ ∀ element ∈ list, check element = .ok () := by
  induction list with
  | nil => simp [List.forM]
  | cons head tail tailIH =>
    change (check head >>= fun _ => tail.forM check) = .ok () ↔ _
    rw [bind_eq_ok, List.forall_mem_cons, ← tailIH]
    exact ⟨fun ⟨_, headOk, tailOk⟩ => ⟨headOk, tailOk⟩, fun ⟨headOk, tailOk⟩ => ⟨_, headOk, tailOk⟩⟩

end Attempt

end Midend
