import Mathlib.Data.List.Forall2
import Mathlib.Data.Option.Basic

/-! # Requests to sets of any kind

`SetRequest`s make sets on a shelf and change them in place. They are served in the same way
whatever the sets are, as a `SetKind` says what can be done with them. When the sets of two kinds are
related and each single change keeps them so, with the same answer, then a whole sequence of requests
does (`SetKind.Simulates.run?`). -/

namespace Midend

/-! ## Kinds of sets -/

/-- The ways to combine two sets. -/
inductive Combination where
  /-- What either set has. -/
  | union
  /-- What both sets have. -/
  | inter
  /-- What the first set has and the second has not. -/
  | diff
  deriving DecidableEq, Repr

/-- What can be done with the sets of one kind. An insertion or a combination tells whether it
changes the set, a removal whether the index was present, unless they are refused. -/
structure SetKind (σ : Type) where
  /-- The empty set of a capacity. -/
  empty : Nat → σ
  /-- The set of all indices below a capacity. -/
  full : Nat → σ
  /-- Removes every index. -/
  clear : σ → σ
  /-- Adds every index below the capacity. -/
  fill : σ → σ
  /-- Adds an index. -/
  insert? : σ → Nat → Option (Bool × σ)
  /-- Removes an index. -/
  erase? : σ → Nat → Option (Bool × σ)
  /-- Combines a set with another one. -/
  combine? : Combination → σ → σ → Option (Bool × σ)

/-! ## Serving requests -/

/-- A request to make a set, or to change the one at a place. -/
inductive SetRequest where
  /-- Make the empty set of a capacity. -/
  | empty (capacity : Nat)
  /-- Make the set of all indices below a capacity. -/
  | full (capacity : Nat)
  /-- Make a copy of the set at a place. -/
  | copy (place : Nat)
  /-- Remove every index. -/
  | clear (place : Nat)
  /-- Add every index. -/
  | fill (place : Nat)
  /-- Add an index. -/
  | insert (place index : Nat)
  /-- Remove an index. -/
  | erase (place index : Nat)
  /-- Combine the set with the one at another place. -/
  | combine (combination : Combination) (place other : Nat)
  deriving DecidableEq, Repr

/-- The sets made so far, each at the place where it was put, and the answers given so far. -/
@[ext]
structure Shelf (σ : Type) where
  /-- The sets in the order in which they were made. -/
  sets : List σ := []
  /-- The answers in the order in which they were given. -/
  answers : List Bool := []
  deriving DecidableEq, Repr

namespace Shelf

variable {σ τ : Type}

/-- Puts a set behind the others. -/
def add (shelf : Shelf σ) (set : σ) : Shelf σ := { shelf with sets := shelf.sets ++ [set] }

/-- Changes the set at a place, which gives an answer. -/
def change? (shelf : Shelf σ) (place : Nat) (update : σ → Option (Bool × σ)) :
    Option (Shelf σ) := do
  let set ← shelf.sets[place]?
  let (answer, changed) ← update set
  return ⟨shelf.sets.set place changed, shelf.answers ++ [answer]⟩

/-- Changes the set at a place, which gives no answer. -/
def replace? (shelf : Shelf σ) (place : Nat) (update : σ → σ) : Option (Shelf σ) := do
  let set ← shelf.sets[place]?
  return { shelf with sets := shelf.sets.set place (update set) }

/-- The shelf with each set seen as one of another kind. -/
def map (view : σ → τ) (shelf : Shelf σ) : Shelf τ := ⟨shelf.sets.map view, shelf.answers⟩

end Shelf

namespace SetKind

variable {σ : Type}

/-- Serves one request; one that names no set is refused. -/
def serve? (kind : SetKind σ) (shelf : Shelf σ) : SetRequest → Option (Shelf σ)
  | .empty capacity => some (shelf.add (kind.empty capacity))
  | .full capacity => some (shelf.add (kind.full capacity))
  | .copy place => do
    let set ← shelf.sets[place]?
    return shelf.add set
  | .clear place => shelf.replace? place kind.clear
  | .fill place => shelf.replace? place kind.fill
  | .insert place index => shelf.change? place (kind.insert? · index)
  | .erase place index => shelf.change? place (kind.erase? · index)
  | .combine combination place other => do
    let partner ← shelf.sets[other]?
    shelf.change? place (kind.combine? combination · partner)

/-- Serves requests one after the other, from an empty shelf on, until one is refused. -/
def run? (kind : SetKind σ) (requests : List SetRequest) : Option (Shelf σ) :=
  requests.foldlM kind.serve? {}

end SetKind

/-! ## Simulation -/

section Simulation

variable {σ τ : Type} {related : σ → τ → Prop}

/-- The same answer beside related sets. -/
def Answered (related : σ → τ → Prop) (left : Bool × σ) (right : Bool × τ) : Prop :=
  left.1 = right.1 ∧ related left.2 right.2

/-- Two kinds of sets do the same, as far as a relation between their sets tells. -/
structure SetKind.Simulates (concrete : SetKind σ) (abstract : SetKind τ)
    (related : σ → τ → Prop) : Prop where
  /-- Empty sets are related. -/
  empty : ∀ capacity, related (concrete.empty capacity) (abstract.empty capacity)
  /-- Full sets are related. -/
  full : ∀ capacity, related (concrete.full capacity) (abstract.full capacity)
  /-- Clearing keeps sets related. -/
  clear : ∀ {set image}, related set image → related (concrete.clear set) (abstract.clear image)
  /-- Filling keeps sets related. -/
  fill : ∀ {set image}, related set image → related (concrete.fill set) (abstract.fill image)
  /-- Insertions into related sets give the same answer and related sets, or are both refused. -/
  insert? : ∀ {set image}, related set image → ∀ index,
    Option.Rel (Answered related) (concrete.insert? set index) (abstract.insert? image index)
  /-- Likewise removals. -/
  erase? : ∀ {set image}, related set image → ∀ index,
    Option.Rel (Answered related) (concrete.erase? set index) (abstract.erase? image index)
  /-- Likewise combinations. -/
  combine? : ∀ {set image other partner}, related set image → related other partner →
    ∀ combination, Option.Rel (Answered related)
      (concrete.combine? combination set other) (abstract.combine? combination image partner)

/-- Shelves with related sets and the same answers. -/
structure Shelf.Related (related : σ → τ → Prop) (shelf : Shelf σ) (image : Shelf τ) : Prop where
  /-- The sets are related place by place. -/
  sets : List.Forall₂ related shelf.sets image.sets
  /-- The answers are the same. -/
  answers : shelf.answers = image.answers

/-- Related steps after related results give related results. -/
theorem rel_bind {α β γ δ : Type} {first : α → β → Prop} {second : γ → δ → Prop}
    {left : Option α} {right : Option β} {leftNext : α → Option γ} {rightNext : β → Option δ}
    (start : Option.Rel first left right)
    (next : ∀ {a b}, first a b → Option.Rel second (leftNext a) (rightNext b)) :
    Option.Rel second (left >>= leftNext) (right >>= rightNext) := by
  cases start with
  | none => exact .none
  | some pair => exact next pair

/-- Related values set at a place keep lists related. -/
theorem forall₂_set {lefts : List σ} {rights : List τ} (pairs : List.Forall₂ related lefts rights)
    (place : Nat) {left : σ} {right : τ} (pair : related left right) :
    List.Forall₂ related (lefts.set place left) (rights.set place right) := by
  induction pairs generalizing place with
  | nil => exact .nil
  | cons headPair tailPairs tailIH =>
    cases place with
    | zero => exact .cons pair tailPairs
    | succ place => exact .cons headPair (tailIH place)

namespace Shelf.Related

variable {shelf : Shelf σ} {image : Shelf τ}

/-- Related shelves have related sets at each place. -/
theorem getElem? (same : Related related shelf image) (place : Nat) :
    Option.Rel related shelf.sets[place]? image.sets[place]? := by
  obtain ⟨length, pairs⟩ := List.forall₂_iff_get.1 same.sets
  by_cases bound : place < shelf.sets.length
  · rw [List.getElem?_eq_getElem bound, List.getElem?_eq_getElem (length ▸ bound)]
    exact .some (pairs place bound (length ▸ bound))
  · rw [List.getElem?_eq_none (by omega), List.getElem?_eq_none (by omega)]
    exact .none

/-- Adding related sets keeps shelves related. -/
theorem add (same : Related related shelf image) {new : σ} {newImage : τ}
    (pair : related new newImage) : Related related (shelf.add new) (image.add newImage) :=
  ⟨List.rel_append same.sets (.cons pair .nil), same.answers⟩

/-- Replacing a set keeps shelves related. -/
theorem replace? (same : Related related shelf image) (place : Nat) {update : σ → σ}
    {updateImage : τ → τ}
    (keeps : ∀ {set image}, related set image → related (update set) (updateImage image)) :
    Option.Rel (Related related) (shelf.replace? place update)
      (image.replace? place updateImage) :=
  rel_bind (same.getElem? place) fun pair =>
    .some ⟨forall₂_set same.sets place (keeps pair), same.answers⟩

/-- Changing a set with the same answer keeps shelves related. -/
theorem change? (same : Related related shelf image) (place : Nat)
    {update : σ → Option (Bool × σ)} {updateImage : τ → Option (Bool × τ)}
    (keeps : ∀ {set image}, related set image →
      Option.Rel (Answered related) (update set) (updateImage image)) :
    Option.Rel (Related related) (shelf.change? place update)
      (image.change? place updateImage) :=
  rel_bind (same.getElem? place) fun pair =>
    rel_bind (keeps pair) fun changed =>
      .some ⟨forall₂_set same.sets place changed.2, by rw [same.answers, changed.1]⟩

end Shelf.Related

namespace SetKind.Simulates

variable {concrete : SetKind σ} {abstract : SetKind τ}

/-- A request keeps shelves related, or is refused on both. -/
theorem serve? (simulates : concrete.Simulates abstract related) {shelf : Shelf σ}
    {image : Shelf τ} (same : Shelf.Related related shelf image) (request : SetRequest) :
    Option.Rel (Shelf.Related related) (concrete.serve? shelf request)
      (abstract.serve? image request) := by
  cases request with
  | empty capacity => exact .some (same.add (simulates.empty capacity))
  | full capacity => exact .some (same.add (simulates.full capacity))
  | copy place => exact rel_bind (same.getElem? place) fun pair => .some (same.add pair)
  | clear place => exact same.replace? place simulates.clear
  | fill place => exact same.replace? place simulates.fill
  | insert place index => exact same.change? place fun pair => simulates.insert? pair index
  | erase place index => exact same.change? place fun pair => simulates.erase? pair index
  | combine combination place other =>
    exact rel_bind (same.getElem? other) fun partners =>
      same.change? place fun pair => simulates.combine? pair partners combination

/-- A sequence of requests keeps shelves related, or is refused on both. -/
theorem run? (simulates : concrete.Simulates abstract related) (requests : List SetRequest) :
    Option.Rel (Shelf.Related related) (concrete.run? requests) (abstract.run? requests) := by
  have general : ∀ {shelf image}, Shelf.Related related shelf image →
      Option.Rel (Shelf.Related related) (requests.foldlM concrete.serve? shelf)
        (requests.foldlM abstract.serve? image) := by
    induction requests with
    | nil => exact fun same => .some same
    | cons request rest restIH =>
      intro shelf image same
      rw [List.foldlM_cons, List.foldlM_cons]
      exact rel_bind (simulates.serve? same request) restIH
  exact general ⟨.nil, rfl⟩

end SetKind.Simulates

end Simulation

end Midend
