import Mathlib.Data.Finset.Card
import Mathlib.Data.Finset.Range
import Midend.Proofs.BitSet
import Midend.Proofs.BitSet.Requests

/-! # Bit sets as finite sets of indices

An `IndexSet` is a finite set of indices below a capacity, whose operations are those of finite sets.
Requests served on bit sets give the same answers, and sets with the same members, as on index sets,
and are refused in the same cases (`run_represents`); the bit sets then tell their members in all the
ways they can (`Represents`). -/

namespace Midend

/-! ## Finite sets below a capacity -/

/-- A finite set of indices below a capacity. -/
@[ext]
structure IndexSet where
  /-- Indices below this bound may be members. -/
  capacity : Nat
  /-- The indices in the set. -/
  members : Finset Nat
  /-- Members are below the capacity. -/
  below : members ⊆ Finset.range capacity
  deriving DecidableEq

namespace Combination

/-- The combination of bit sets. -/
def ofBitSets : Combination → BitSet → BitSet → BitSet
  | union => BitSet.union
  | inter => BitSet.inter
  | diff => BitSet.diff

/-- The combination of finite sets. -/
def ofFinsets : Combination → Finset Nat → Finset Nat → Finset Nat
  | union => (· ∪ ·)
  | inter => (· ∩ ·)
  | diff => (· \ ·)

/-- A combination of finite sets has members of these sets only. -/
theorem ofFinsets_subset (combination : Combination) {left right whole : Finset Nat}
    (leftSubset : left ⊆ whole) (rightSubset : right ⊆ whole) :
    combination.ofFinsets left right ⊆ whole := by
  cases combination with
  | union => exact Finset.union_subset leftSubset rightSubset
  | inter => exact Finset.inter_subset_left.trans leftSubset
  | diff => exact Finset.sdiff_subset.trans leftSubset

/-- Bit sets are combined word by word, and their members as those of finite sets. -/
theorem exists_bitwise (combination : Combination) :
    ∃ operation join, combination.ofBitSets = BitSet.combine operation ∧
      BitSet.Bitwise operation join ∧ ∀ (left right : Finset Nat) (index : Nat),
        index ∈ combination.ofFinsets left right ↔
          join (decide (index ∈ left)) (decide (index ∈ right)) = true := by
  cases combination with
  | union => exact ⟨_, _, rfl, BitSet.bitwise_or, by simp [ofFinsets]⟩
  | inter => exact ⟨_, _, rfl, BitSet.bitwise_and, by simp [ofFinsets]⟩
  | diff => exact ⟨_, _, rfl, BitSet.bitwise_diff, by simp [ofFinsets]⟩

end Combination

namespace IndexSet

/-- The empty set of a capacity. -/
def empty (capacity : Nat) : IndexSet := ⟨capacity, ∅, Finset.empty_subset _⟩

/-- The set of all indices below a capacity. -/
def full (capacity : Nat) : IndexSet := ⟨capacity, Finset.range capacity, Finset.Subset.refl _⟩

/-- Gives a set other members, and tells whether that changes it. -/
def change (set : IndexSet) (members : Finset Nat) (below : members ⊆ Finset.range set.capacity) :
    Bool × IndexSet :=
  (decide (members ≠ set.members), ⟨set.capacity, members, below⟩)

/-- Adds an index below the capacity, and tells whether the set changes. -/
def insert? (set : IndexSet) (index : Nat) : Option (Bool × IndexSet) :=
  if inside : index < set.capacity then
    some (set.change (insert index set.members)
      (Finset.insert_subset (Finset.mem_range.2 inside) set.below))
  else none

/-- Removes an index below the capacity, and tells whether it was present. -/
def erase? (set : IndexSet) (index : Nat) : Option (Bool × IndexSet) :=
  if index < set.capacity then
    some (decide (index ∈ set.members),
      ⟨set.capacity, set.members.erase index, (Finset.erase_subset _ _).trans set.below⟩)
  else none

/-- Combines sets of one capacity, and tells whether the first set changes. -/
def combine? (combination : Combination) (set other : IndexSet) : Option (Bool × IndexSet) :=
  if same : set.capacity = other.capacity then
    some (set.change (combination.ofFinsets set.members other.members)
      (combination.ofFinsets_subset set.below (same ▸ other.below)))
  else none

end IndexSet

/-- Bit sets, changed word by word. -/
def BitSet.kind : SetKind BitSet where
  empty := BitSet.empty
  full := BitSet.full
  clear := BitSet.clear
  fill := BitSet.fill
  insert? := BitSet.insert?
  erase? := BitSet.erase?
  combine? combination := BitSet.combine? combination.ofBitSets

/-- Index sets, changed as finite sets. -/
def IndexSet.kind : SetKind IndexSet where
  empty := IndexSet.empty
  full := IndexSet.full
  clear set := IndexSet.empty set.capacity
  fill set := IndexSet.full set.capacity
  insert? := IndexSet.insert?
  erase? := IndexSet.erase?
  combine? := IndexSet.combine?

/-! ## Bit sets simulate index sets -/

namespace BitSet

/-- The finite set of the members of a bit set. -/
def toIndexSet (set : BitSet) : IndexSet :=
  ⟨set.capacity, (Finset.range set.capacity).filter (· ∈ set), Finset.filter_subset _ _⟩

@[simp] theorem capacity_toIndexSet (set : BitSet) : set.toIndexSet.capacity = set.capacity := rfl

@[simp] theorem mem_toIndexSet {set : BitSet} {index : Nat} :
    index ∈ set.toIndexSet.members ↔ index ∈ set := by
  rw [toIndexSet, Finset.mem_filter, Finset.mem_range]
  exact and_iff_right_of_imp lt_of_mem

/-- A bit set that fits denotes the index set of its members. -/
def Denotes (set : BitSet) (image : IndexSet) : Prop := set.Fits ∧ set.toIndexSet = image

/-- The capacity and the members decide what a set that fits denotes. -/
theorem Fits.denotes {set : BitSet} (fits : set.Fits) {image : IndexSet}
    (capacity : set.capacity = image.capacity)
    (same : ∀ index, index ∈ set ↔ index ∈ image.members) : set.Denotes image :=
  ⟨fits, IndexSet.ext capacity (Finset.ext fun index => mem_toIndexSet.trans (same index))⟩

/-- Sets of one capacity that fit are equal exactly if they have the same members. -/
theorem Fits.eq_iff_members {left right : BitSet} (leftFits : left.Fits) (rightFits : right.Fits)
    (capacity : left.capacity = right.capacity) :
    left = right ↔ left.toIndexSet.members = right.toIndexSet.members := by
  refine ⟨fun same => same ▸ rfl, fun same => leftFits.ext rightFits capacity fun index => ?_⟩
  rw [← mem_toIndexSet, same, mem_toIndexSet]

/-- Filling a set that fits denotes the full set. -/
theorem Fits.denotes_fill {set : BitSet} (fits : set.Fits) :
    set.fill.Denotes (IndexSet.full set.capacity) := by
  refine fits.fill.denotes (capacity_fill set) fun index => ?_
  rw [fits.mem_fill, IndexSet.full, Finset.mem_range]

/-- Insertion denotes insertion: the index was absent exactly if the members change. -/
theorem Fits.denotes_insert? {set : BitSet} (fits : set.Fits) (index : Nat) :
    Option.Rel (Answered Denotes) (set.insert? index) (set.toIndexSet.insert? index) := by
  unfold insert? IndexSet.insert?
  by_cases inside : index < set.capacity
  · have below : index < set.toIndexSet.capacity := inside
    rw [if_pos inside, dif_pos below]
    refine .some ⟨?_, (fits.insert index).denotes (capacity_insert ..) fun other => ?_⟩
    · rw [IndexSet.change, Bool.eq_iff_iff, decide_eq_true_iff, ne_eq, Finset.insert_eq_self,
        mem_toIndexSet, ← contains_iff, Bool.not_eq_true']
      simp
    · rw [fits.mem_insert inside, IndexSet.change, Finset.mem_insert, mem_toIndexSet]
  · have beyond : ¬index < set.toIndexSet.capacity := inside
    rw [if_neg inside, dif_neg beyond]
    exact .none

/-- Removal denotes removal. -/
theorem Fits.denotes_erase? {set : BitSet} (fits : set.Fits) (index : Nat) :
    Option.Rel (Answered Denotes) (set.erase? index) (set.toIndexSet.erase? index) := by
  unfold erase? IndexSet.erase?
  by_cases inside : index < set.capacity
  · have below : index < set.toIndexSet.capacity := inside
    rw [if_pos inside, if_pos below]
    refine .some ⟨?_, (fits.erase index).denotes (capacity_erase ..) fun other => ?_⟩
    · simp [← contains_iff]
    · rw [fits.mem_erase, Finset.mem_erase, mem_toIndexSet]
  · have beyond : ¬index < set.toIndexSet.capacity := inside
    rw [if_neg inside, if_neg beyond]
    exact .none

/-- A combination denotes the combination: a word changes exactly if the members change. -/
theorem Fits.denotes_combine? {set other : BitSet} (fits : set.Fits) (otherFits : other.Fits)
    (combination : Combination) :
    Option.Rel (Answered Denotes) (combine? combination.ofBitSets set other)
      (set.toIndexSet.combine? combination other.toIndexSet) := by
  obtain ⟨operation, join, wordwise, bitwise, members⟩ := combination.exists_bitwise
  rw [wordwise, combine?_eq fits otherFits]
  unfold IndexSet.combine?
  by_cases capacity : set.capacity = other.capacity
  · have same : set.toIndexSet.capacity = other.toIndexSet.capacity := capacity
    rw [if_pos capacity, dif_pos same]
    have resultFits := bitwise.fits_combine fits otherFits capacity
    have joined : (combine operation set other).toIndexSet.members =
        combination.ofFinsets set.toIndexSet.members other.toIndexSet.members := by
      ext index
      simp only [bitwise.mem_combine fits otherFits capacity, members, mem_toIndexSet]
    refine .some ⟨?_, resultFits, IndexSet.ext rfl joined⟩
    -- No stray bit can make the combined set differ from the first one while the members agree.
    have unchanged := resultFits.eq_iff_members fits capacity_combine
    rw [joined] at unchanged
    exact decide_eq_decide.2 (not_congr unchanged)
  · have apart : set.toIndexSet.capacity ≠ other.toIndexSet.capacity := capacity
    rw [if_neg capacity, dif_neg apart]
    exact .none

/-- Bit sets do what index sets do. -/
theorem kind_simulates : BitSet.kind.Simulates IndexSet.kind Denotes where
  empty capacity := (fits_empty capacity).denotes rfl fun index => by
    simp [IndexSet.kind, IndexSet.empty]
  full capacity := (fits_empty capacity).denotes_fill
  clear := by
    rintro set _ ⟨fits, rfl⟩
    change set.clear.Denotes _
    rw [fits.clear_eq]
    exact (fits_empty set.capacity).denotes rfl fun index => by simp [IndexSet.kind, IndexSet.empty]
  fill := by
    rintro set _ ⟨fits, rfl⟩
    exact fits.denotes_fill
  insert? := by
    rintro set _ ⟨fits, rfl⟩ index
    exact fits.denotes_insert? index
  erase? := by
    rintro set _ ⟨fits, rfl⟩ index
    exact fits.denotes_erase? index
  combine? := by
    rintro set _ other _ ⟨fits, rfl⟩ ⟨otherFits, rfl⟩ combination
    exact fits.denotes_combine? otherFits combination

/-- Bit sets that denote index sets fit, and these are the sets of their members. -/
theorem fits_of_denotes {sets : List BitSet} {images : List IndexSet}
    (pairs : List.Forall₂ Denotes sets images) :
    (∀ set ∈ sets, set.Fits) ∧ sets.map toIndexSet = images := by
  induction pairs with
  | nil => exact ⟨by simp, rfl⟩
  | cons pair _ restIH =>
    exact ⟨List.forall_mem_cons.2 ⟨pair.1, restIH.1⟩, congrArg₂ List.cons pair.2 restIH.2⟩

/-! ## What a bit set tells -/

/-- All that a bit set tells of its members: those of an index set. -/
structure Represents (set : BitSet) (image : IndexSet) : Prop where
  /-- The capacity is that of the index set. -/
  capacity_eq : set.capacity = image.capacity
  /-- The bits set in the words, also beyond the capacity, are those of members. -/
  bitAt_eq : ∀ index, set.bitAt index = decide (index ∈ image.members)
  /-- Members are contained and no other index is. -/
  contains_eq : ∀ index, set.contains index = decide (index ∈ image.members)
  /-- The count is the number of members. -/
  count_eq : set.count = image.members.card
  /-- The set is empty exactly if it has no member. -/
  isEmpty_eq : set.isEmpty = decide (image.members = ∅)
  /-- The iteration yields the listed indices and then ends. -/
  yields : set.cursor.Yields set.toList
  /-- Collecting what the iteration yields gives the listed indices. -/
  iterate_eq : set.iterate = set.toList
  /-- The listed indices are strictly increasing. -/
  ascending : set.toList.Pairwise (· < ·)
  /-- The listed indices are the members. -/
  listed : set.toList.toFinset = image.members

/-- A set that fits represents the index set of its members. -/
theorem Fits.represents {set : BitSet} (fits : set.Fits) : set.Represents set.toIndexSet := by
  have listed : set.toList.toFinset = set.toIndexSet.members := by
    ext index
    rw [List.mem_toFinset, fits.mem_toList, mem_toIndexSet]
  exact {
    capacity_eq := rfl
    bitAt_eq := fun index => by simp [fits.mem_iff]
    contains_eq := fun index => by simp [← contains_iff]
    count_eq := by
      rw [count_eq_length, ← listed, List.toFinset_card_of_nodup (nodup_toList set)]
    isEmpty_eq := by
      rw [Bool.eq_iff_iff, fits.isEmpty_iff, decide_eq_true_iff, Finset.eq_empty_iff_forall_notMem]
      exact forall_congr' fun index => not_congr mem_toIndexSet.symm
    yields := yields_toList set
    iterate_eq := iterate_eq set
    ascending := pairwise_toList set
    listed := listed }

/-- Inclusion of sets of one capacity that fit is inclusion of the sets of their members. -/
theorem Fits.isSubset?_eq {left right : BitSet} (leftFits : left.Fits) (rightFits : right.Fits)
    (capacity : left.capacity = right.capacity) :
    left.isSubset? right = some (decide (left.toIndexSet.members ⊆ right.toIndexSet.members)) := by
  rw [isSubset?, if_pos capacity, Option.some_inj, Bool.eq_iff_iff,
    leftFits.isSubset_iff rightFits capacity, decide_eq_true_iff]
  exact forall_congr' fun index => imp_congr mem_toIndexSet.symm mem_toIndexSet.symm

/-- Bit sets are finite sets of indices: a sequence of requests to make and change sets is refused
exactly if it is refused on finite sets, and otherwise gives the same answers and leaves sets with
the same members. Each of these sets tells its members by its bits, its count, its emptiness and its
iteration, and any two of one capacity by inclusion and equality. -/
theorem run_represents (requests : List SetRequest) :
    (BitSet.kind.run? requests).map (Shelf.map toIndexSet) = IndexSet.kind.run? requests ∧
    ∀ shelf, BitSet.kind.run? requests = some shelf →
      (∀ set ∈ shelf.sets, set.Represents set.toIndexSet) ∧
      ∀ left ∈ shelf.sets, ∀ right ∈ shelf.sets, left.capacity = right.capacity →
        left.isSubset? right =
          some (decide (left.toIndexSet.members ⊆ right.toIndexSet.members)) ∧
        (left == right) = decide (left.toIndexSet.members = right.toIndexSet.members) := by
  have simulated := kind_simulates.run? requests
  -- Both runs are refused, or both leave shelves with the bit sets denoting the index sets.
  generalize BitSet.kind.run? requests = served, IndexSet.kind.run? requests = image at simulated ⊢
  cases simulated with
  | none => exact ⟨rfl, by simp⟩
  | @some shelf image related =>
    obtain ⟨fitting, viewed⟩ := fits_of_denotes related.sets
    refine ⟨congrArg some (Shelf.ext viewed related.answers), ?_⟩
    rintro _ ⟨⟩
    refine ⟨fun set member => (fitting set member).represents, ?_⟩
    intro left leftMem right rightMem capacity
    have leftFits := fitting left leftMem
    have rightFits := fitting right rightMem
    refine ⟨leftFits.isSubset?_eq rightFits capacity, ?_⟩
    rw [Bool.eq_iff_iff, beq_iff_eq, decide_eq_true_iff]
    exact leftFits.eq_iff_members rightFits capacity

/-- Requests for a set with members on both sides of the first word boundary and in the last word,
none of them in the word between, and for the rest of the indices. -/
def acrossWords : List SetRequest :=
  [.empty 130, .insert 0 3, .insert 0 63, .insert 0 64, .insert 0 129, .erase 0 64, .insert 0 3,
    .full 130, .combine .diff 1 0, .combine .diff 1 0]

/-- The set asked for, whose second word is zero, and the rest, whose last word is not full. -/
theorem run_represents_acrossWords :
    ∃ spread rest, BitSet.kind.run? acrossWords =
        some ⟨[spread, rest], [true, true, true, true, true, false, true, false]⟩ ∧
      IndexSet.kind.run? acrossWords = some ⟨[spread.toIndexSet, rest.toIndexSet],
        [true, true, true, true, true, false, true, false]⟩ ∧
      spread.Represents spread.toIndexSet ∧ spread.toList = [3, 63, 129] ∧ rest.count = 127 ∧
      spread.isSubset? rest =
        some (decide (spread.toIndexSet.members ⊆ rest.toIndexSet.members)) ∧
      (spread == rest) = decide (spread.toIndexSet.members = rest.toIndexSet.members) := by
  have ran : BitSet.kind.run? acrossWords =
      some ⟨[⟨130, [9223372036854775816, 0, 2]⟩,
        ⟨130, [9223372036854775799, 18446744073709551615, 1]⟩],
        [true, true, true, true, true, false, true, false]⟩ := by decide +kernel
  obtain ⟨viewed, told⟩ := run_represents acrossWords
  obtain ⟨represented, compared⟩ := told _ ran
  rw [ran] at viewed
  refine ⟨_, _, ran, viewed.symm, represented _ (by simp), by decide +kernel, by decide +kernel, ?_⟩
  exact compared _ (by simp) _ (by simp) rfl

end BitSet

end Midend
