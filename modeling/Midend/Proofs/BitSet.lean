import Mathlib.Data.List.GetD
import Mathlib.Data.List.Nodup
import Midend.Proofs.BitSet.Word

/-! # Members of a bit set

`BitSet.bitAt` reads the bit of an index off the words. A set `Fits` when it has as many words as
its capacity needs and no bit at or above the capacity is set; the operations keep this, and change
the members as they should. A set that fits is determined by its members (`Fits.ext`), lists each of
them once and in ascending order (`mem_toList`, `pairwise_toList`) and counts them
(`count_eq_length`); the iteration yields that list and ends (`yields_toList`). -/

namespace Midend

namespace BitSet

/-! ## Bits of a set -/

/-- The bit of an index, whatever the capacity. -/
def bitAt (set : BitSet) (index : Nat) : Bool :=
  (set.words.getD (index / 64) 0).toNat.testBit (index % 64)

/-- A set with the words that its capacity needs and no bit beyond the capacity. -/
structure Fits (set : BitSet) : Prop where
  /-- There are as many words as the capacity needs. -/
  length_words : set.words.length = wordCount set.capacity
  /-- No bit at or above the capacity is set. -/
  bitAt_high : ∀ index, set.capacity ≤ index → set.bitAt index = false

/-- An index below the capacity has a word. -/
theorem Fits.word_lt {set : BitSet} (fits : set.Fits) {index : Nat} (below : index < set.capacity) :
    index / 64 < set.words.length := by
  rw [fits.length_words, wordCount, wordBits]
  omega

/-- Whether a set contains an index is its bit, below the capacity. -/
theorem contains_eq (set : BitSet) (index : Nat) :
    set.contains index = (decide (index < set.capacity) && set.bitAt index) := by
  have small : index % 64 < 64 := Nat.mod_lt _ (by omega)
  unfold contains bitAt
  rw [List.getD_eq_getElem?_getD]
  simp only [wordBits]
  cases set.words[index / 64]? with
  | none => simp
  | some word => simp [testBit_eq word small]

/-- The members of a set that fits are its bits. -/
theorem Fits.mem_iff {set : BitSet} (fits : set.Fits) {index : Nat} :
    index ∈ set ↔ set.bitAt index = true := by
  change set.contains index = true ↔ _
  rw [contains_eq]
  by_cases below : index < set.capacity
  · simp [below]
  · simp [below, fits.bitAt_high index (by omega)]

/-- Members are below the capacity. -/
theorem lt_of_mem {set : BitSet} {index : Nat} (member : index ∈ set) : index < set.capacity := by
  have held : set.contains index = true := member
  rw [contains_eq] at held
  simpa using And.left (by simpa using held)

/-- Containment as a truth value is membership. -/
theorem contains_iff {set : BitSet} {index : Nat} : set.contains index = true ↔ index ∈ set :=
  Iff.rfl

/-- A set that fits is determined by its capacity and its members. -/
theorem Fits.ext {left right : BitSet} (leftFits : left.Fits) (rightFits : right.Fits)
    (capacity : left.capacity = right.capacity)
    (same : ∀ index, index ∈ left ↔ index ∈ right) : left = right := by
  have bits : ∀ index, left.bitAt index = right.bitAt index := by
    intro index
    have members := same index
    rw [leftFits.mem_iff, rightFits.mem_iff] at members
    exact Bool.eq_iff_iff.2 members
  obtain ⟨leftCapacity, leftWords⟩ := left
  obtain ⟨rightCapacity, rightWords⟩ := right
  have lengths : leftWords.length = rightWords.length := by
    rw [leftFits.length_words, rightFits.length_words, capacity]
  have words : leftWords = rightWords := by
    refine List.ext_getElem lengths fun place leftBound rightBound => ?_
    refine word_ext fun bit below => ?_
    have bit_eq := bits (place * 64 + bit)
    have quotient : (place * 64 + bit) / 64 = place := by omega
    have remainder : (place * 64 + bit) % 64 = bit := by omega
    simpa [bitAt, quotient, remainder, leftBound, rightBound] using bit_eq
  simp only [BitSet.mk.injEq]
  exact ⟨capacity, words⟩

/-! ## The empty set -/

@[simp] theorem capacity_empty (capacity : Nat) : (empty capacity).capacity = capacity := rfl

/-- The empty set has no bit. -/
theorem bitAt_empty (capacity index : Nat) : (empty capacity).bitAt index = false := by
  unfold bitAt empty
  rw [List.getD_eq_getElem?_getD, List.getElem?_replicate]
  split <;> simp

/-- The empty set fits. -/
theorem fits_empty (capacity : Nat) : (empty capacity).Fits :=
  ⟨by simp [empty], fun index _ => bitAt_empty capacity index⟩

/-- Nothing belongs to the empty set. -/
@[simp] theorem not_mem_empty (capacity index : Nat) : index ∉ empty capacity := by
  rw [(fits_empty capacity).mem_iff, bitAt_empty]
  simp

/-! ## Changing one index -/

@[simp] theorem capacity_insert (set : BitSet) (index : Nat) :
    (set.insert index).capacity = set.capacity := by
  unfold insert
  split <;> rfl

@[simp] theorem capacity_erase (set : BitSet) (index : Nat) :
    (set.erase index).capacity = set.capacity := by
  unfold erase
  split <;> rfl

/-- Changing one word changes the bits of that word only. -/
theorem bitAt_modify {set : BitSet} {place : Nat} (change : UInt64 → UInt64) (index : Nat)
    (bound : place < set.words.length) :
    bitAt { set with words := set.words.modify place change } index =
      if index / 64 = place then
        (change (set.words.getD place 0)).toNat.testBit (index % 64)
      else set.bitAt index := by
  unfold bitAt
  simp only [List.getD_eq_getElem?_getD, List.getElem?_modify]
  by_cases same : index / 64 = place
  · subst same; simp [List.getElem?_eq_getElem bound]
  · have apart : place ≠ index / 64 := fun eq => same eq.symm
    simp [same, apart]

/-- In one word, indices with the same bit are the same. -/
theorem bit_eq_iff {index other : Nat} (word : other / 64 = index / 64) :
    index % 64 = other % 64 ↔ other = index := by
  omega

/-- The bits after an insertion below the capacity. -/
theorem Fits.bitAt_insert {set : BitSet} (fits : set.Fits) {index : Nat}
    (below : index < set.capacity) (other : Nat) :
    (set.insert index).bitAt other = (decide (other = index) || set.bitAt other) := by
  have small : index % 64 < 64 := Nat.mod_lt _ (by omega)
  rw [insert, if_pos below, wordBits, bitAt_modify _ _ (fits.word_lt below)]
  by_cases word : other / 64 = index / 64
  · rw [if_pos word, UInt64.toNat_or, Nat.testBit_or, testBit_maskBit small, bitAt, word,
      Bool.or_comm, decide_eq_decide.2 (bit_eq_iff word)]
  · have apart : other ≠ index := fun eq => word (by rw [eq])
    simp [word, apart]

/-- Insertion keeps a set fitting. -/
theorem Fits.insert {set : BitSet} (fits : set.Fits) (index : Nat) : (set.insert index).Fits := by
  by_cases below : index < set.capacity
  · refine ⟨?_, fun other high => ?_⟩
    · rw [BitSet.insert, if_pos below]
      simpa using fits.length_words
    · rw [capacity_insert] at high
      rw [fits.bitAt_insert below, fits.bitAt_high other high]
      simp only [Bool.or_false, decide_eq_false_iff_not]
      omega
  · rw [BitSet.insert, if_neg below]; exact fits

/-- The members after an insertion. -/
theorem Fits.mem_insert {set : BitSet} (fits : set.Fits) {index : Nat}
    (below : index < set.capacity) (other : Nat) :
    other ∈ set.insert index ↔ other = index ∨ other ∈ set := by
  rw [(fits.insert index).mem_iff, fits.bitAt_insert below, fits.mem_iff]
  simp

/-- Nothing else is inserted than the index. -/
theorem Fits.mem_of_mem_insert {set : BitSet} (fits : set.Fits) {index other : Nat}
    (member : other ∈ set.insert index) : other = index ∨ other ∈ set := by
  by_cases below : index < set.capacity
  · exact (fits.mem_insert below other).1 member
  · rw [BitSet.insert, if_neg below] at member
    exact .inr member

/-- The bits after a removal. -/
theorem Fits.bitAt_erase {set : BitSet} (fits : set.Fits) {index : Nat}
    (below : index < set.capacity) (other : Nat) :
    (set.erase index).bitAt other = (decide (other ≠ index) && set.bitAt other) := by
  have small : index % 64 < 64 := Nat.mod_lt _ (by omega)
  rw [erase, if_pos below, wordBits, bitAt_modify _ _ (fits.word_lt below)]
  by_cases word : other / 64 = index / 64
  · rw [if_pos word, UInt64.toNat_and, Nat.testBit_and, testBit_not _ (Nat.mod_lt _ (by omega)),
      testBit_maskBit small, bitAt, word, Bool.and_comm, decide_eq_decide.2 (bit_eq_iff word),
      decide_not]
  · have apart : other ≠ index := fun eq => word (by rw [eq])
    simp [word, apart]

/-- Removal keeps a set fitting. -/
theorem Fits.erase {set : BitSet} (fits : set.Fits) (index : Nat) : (set.erase index).Fits := by
  by_cases below : index < set.capacity
  · refine ⟨?_, fun other high => ?_⟩
    · rw [BitSet.erase, if_pos below]
      simpa using fits.length_words
    · rw [capacity_erase] at high
      rw [fits.bitAt_erase below, fits.bitAt_high other high, Bool.and_false]
  · rw [BitSet.erase, if_neg below]; exact fits

/-- The members after a removal. -/
theorem Fits.mem_erase {set : BitSet} (fits : set.Fits) {index other : Nat} :
    other ∈ set.erase index ↔ other ≠ index ∧ other ∈ set := by
  by_cases below : index < set.capacity
  · rw [(fits.erase index).mem_iff, fits.bitAt_erase below, fits.mem_iff]
    simp
  · rw [BitSet.erase, if_neg below]
    refine ⟨fun member => ⟨?_, member⟩, And.right⟩
    rintro rfl
    exact below (lt_of_mem member)

/-! ## Inserting several indices -/

@[simp] theorem capacity_insertAll (set : BitSet) (indices : List Nat) :
    (indices.foldl BitSet.insert set).capacity = set.capacity := by
  induction indices generalizing set with
  | nil => rfl
  | cons index rest restIH => rw [List.foldl_cons, restIH, capacity_insert]

/-- Inserting several indices keeps a set fitting. -/
theorem Fits.insertAll {set : BitSet} (fits : set.Fits) (indices : List Nat) :
    (indices.foldl BitSet.insert set).Fits := by
  induction indices generalizing set with
  | nil => exact fits
  | cons index rest restIH => exact restIH (fits.insert index)

/-- The members after inserting several indices. -/
theorem Fits.mem_insertAll {set : BitSet} (fits : set.Fits) {indices : List Nat}
    (below : ∀ index ∈ indices, index < set.capacity) {other : Nat} :
    other ∈ indices.foldl BitSet.insert set ↔ other ∈ indices ∨ other ∈ set := by
  induction indices generalizing set with
  | nil => simp
  | cons index rest restIH =>
    have restBelow : ∀ later ∈ rest, later < (set.insert index).capacity := by
      intro later laterMem
      rw [capacity_insert]
      exact below later (List.mem_cons_of_mem _ laterMem)
    rw [List.foldl_cons, restIH (fits.insert index) restBelow,
      fits.mem_insert (below index (List.mem_cons_self ..)), List.mem_cons]
    tauto

/-! ## Combining two sets -/

/-- An operation on words that joins them bit by bit, and sets no bit that neither word has. -/
structure Bitwise (operation : UInt64 → UInt64 → UInt64) (join : Bool → Bool → Bool) : Prop where
  /-- Each bit of the result is joined from the two bits at its place. -/
  testBit : ∀ (left right : UInt64) {bit : Nat}, bit < 64 →
    (operation left right).toNat.testBit bit =
      join (left.toNat.testBit bit) (right.toNat.testBit bit)
  /-- Two absent bits leave the bit absent. -/
  absent : join false false = false

/-- The union of words. -/
theorem bitwise_or : Bitwise (· ||| ·) (· || ·) where
  testBit left right bit _ := by rw [UInt64.toNat_or, Nat.testBit_or]
  absent := rfl

/-- The intersection of words. -/
theorem bitwise_and : Bitwise (· &&& ·) (· && ·) where
  testBit left right bit _ := by rw [UInt64.toNat_and, Nat.testBit_and]
  absent := rfl

/-- The difference of words. -/
theorem bitwise_diff :
    Bitwise (fun left right => left &&& ~~~ right) (fun left right => left && !right) where
  testBit left right bit below := by rw [UInt64.toNat_and, Nat.testBit_and, testBit_not right below]
  absent := rfl

/-- Sets that fit one capacity have equally many words. -/
theorem Fits.length_eq {left right : BitSet} (leftFits : left.Fits) (rightFits : right.Fits)
    (capacity : left.capacity = right.capacity) : left.words.length = right.words.length := by
  rw [leftFits.length_words, rightFits.length_words, capacity]

section Combining

variable {operation : UInt64 → UInt64 → UInt64} {join : Bool → Bool → Bool} {left right : BitSet}

@[simp] theorem capacity_combine : (combine operation left right).capacity = left.capacity := rfl

/-- The bits of a combination of sets with equally many words. -/
theorem Bitwise.bitAt_combine (bitwise : Bitwise operation join)
    (lengths : left.words.length = right.words.length) (index : Nat) :
    (combine operation left right).bitAt index = join (left.bitAt index) (right.bitAt index) := by
  unfold combine bitAt
  simp only [List.getD_eq_getElem?_getD, List.getElem?_zipWith]
  by_cases bound : index / 64 < left.words.length
  · rw [List.getElem?_eq_getElem bound, List.getElem?_eq_getElem (lengths ▸ bound)]
    exact bitwise.testBit _ _ (Nat.mod_lt _ (by omega))
  · rw [List.getElem?_eq_none (by omega), List.getElem?_eq_none (by omega)]
    simp [bitwise.absent]

/-- The combination of sets that fit a capacity fits it. -/
theorem Bitwise.fits_combine (bitwise : Bitwise operation join) (leftFits : left.Fits)
    (rightFits : right.Fits) (capacity : left.capacity = right.capacity) :
    (combine operation left right).Fits := by
  have lengths := leftFits.length_eq rightFits capacity
  refine ⟨?_, fun index high => ?_⟩
  · simpa [combine, ← lengths] using leftFits.length_words
  · rw [capacity_combine] at high
    rw [bitwise.bitAt_combine lengths, leftFits.bitAt_high index high,
      rightFits.bitAt_high index (capacity ▸ high), bitwise.absent]

/-- The members of a combination. -/
theorem Bitwise.mem_combine (bitwise : Bitwise operation join) (leftFits : left.Fits)
    (rightFits : right.Fits) (capacity : left.capacity = right.capacity) {index : Nat} :
    index ∈ combine operation left right ↔
      join (decide (index ∈ left)) (decide (index ∈ right)) = true := by
  have ofBit : ∀ {set : BitSet}, set.Fits → decide (index ∈ set) = set.bitAt index := fun fits => by
    simp [fits.mem_iff]
  rw [(bitwise.fits_combine leftFits rightFits capacity).mem_iff, ofBit leftFits, ofBit rightFits,
    bitwise.bitAt_combine (leftFits.length_eq rightFits capacity)]

/-- Some word of a list differs from the one in its place exactly if the lists differ. -/
theorem any_ne_eq {old new : List UInt64} (lengths : old.length = new.length) :
    (List.zipWith (· != ·) old new).any id = (old != new) := by
  induction old generalizing new with
  | nil => rw [List.length_eq_zero_iff.1 lengths.symm]; rfl
  | cons word rest restIH =>
    obtain _ | ⟨other, others⟩ := new
    · simp at lengths
    · rw [List.zipWith_cons_cons, List.any_cons, restIH (by simpa using lengths)]
      simp only [bne, List.cons_beq_cons, id, Bool.not_and]

/-- A checked combination tells whether the first set changed. -/
theorem combine?_eq (leftFits : left.Fits) (rightFits : right.Fits) :
    combine? (combine operation) left right =
      if left.capacity = right.capacity then
        some (decide (combine operation left right ≠ left), combine operation left right)
      else none := by
  by_cases capacity : left.capacity = right.capacity
  · have lengths := leftFits.length_eq rightFits capacity
    have changed := @any_ne_eq left.words (combine operation left right).words (by
      simp [combine, lengths])
    simp only [combine?, if_pos capacity, changed, Option.some_inj, Prod.mk.injEq]
    refine ⟨?_, trivial⟩
    rw [Bool.eq_iff_iff, bne_iff_ne, decide_eq_true_iff]
    -- The result keeps the capacity, so that only the words can differ.
    exact not_congr ⟨fun same => congrArg (BitSet.mk left.capacity) same.symm,
      fun same => (congrArg words same).symm⟩
  · rw [combine?, if_neg capacity, if_neg capacity]

@[simp] theorem capacity_inter : (left.inter right).capacity = left.capacity := rfl

/-- The intersection of sets that fit a capacity fits it. -/
theorem Fits.inter (leftFits : left.Fits) (rightFits : right.Fits)
    (capacity : left.capacity = right.capacity) : (left.inter right).Fits :=
  bitwise_and.fits_combine leftFits rightFits capacity

/-- The members of an intersection. -/
theorem Fits.mem_inter (leftFits : left.Fits) (rightFits : right.Fits)
    (capacity : left.capacity = right.capacity) {index : Nat} :
    index ∈ left.inter right ↔ index ∈ left ∧ index ∈ right := by
  rw [BitSet.inter, bitwise_and.mem_combine leftFits rightFits capacity]
  simp

/-- The difference of sets that fit a capacity fits it. -/
theorem Fits.diff (leftFits : left.Fits) (rightFits : right.Fits)
    (capacity : left.capacity = right.capacity) : (left.diff right).Fits :=
  bitwise_diff.fits_combine leftFits rightFits capacity

/-- The members of a difference. -/
theorem Fits.mem_diff (leftFits : left.Fits) (rightFits : right.Fits)
    (capacity : left.capacity = right.capacity) {index : Nat} :
    index ∈ left.diff right ↔ index ∈ left ∧ index ∉ right := by
  rw [BitSet.diff, bitwise_diff.mem_combine leftFits rightFits capacity]
  simp

end Combining

/-! ## Changing all indices -/

/-- Clearing a set that fits gives the empty set. -/
theorem Fits.clear_eq {set : BitSet} (fits : set.Fits) : set.clear = empty set.capacity := by
  rw [clear, empty, ← fits.length_words, List.map_const']

@[simp] theorem capacity_fill (set : BitSet) : set.fill.capacity = set.capacity := by
  rw [fill]
  split <;> rfl

/-- When every word is full, every index that has a word has its bit. -/
theorem bitAt_ones (set : BitSet) (index : Nat) :
    bitAt { set with words := set.words.map fun _ => (0 : UInt64) - 1 } index =
      decide (index / 64 < set.words.length) := by
  unfold bitAt
  simp only [List.getD_eq_getElem?_getD, List.getElem?_map]
  by_cases bound : index / 64 < set.words.length
  · have small : index % 64 < 64 := Nat.mod_lt _ (by omega)
    rw [List.getElem?_eq_getElem bound, Option.map_some, Option.getD_some, testBit_zero_sub_one,
      decide_eq_true small, decide_eq_true bound]
  · rw [List.getElem?_eq_none (by omega)]
    simp [bound]

/-- Filling a set that fits sets the bits below the capacity and no other. -/
theorem Fits.bitAt_fill {set : BitSet} (fits : set.Fits) (index : Nat) :
    set.fill.bitAt index = decide (index < set.capacity) := by
  have count : set.words.length = (set.capacity + 63) / 64 := fits.length_words
  by_cases whole : set.capacity % wordBits = 0
  · simp only [fill, if_pos whole]
    rw [bitAt_ones, decide_eq_decide]
    rw [wordBits] at whole
    omega
  · simp only [fill, if_neg whole, List.length_map]
    rw [wordBits] at whole ⊢
    -- The last word holds the indices from the last multiple of 64 below the capacity on.
    have last : set.words.length - 1 < set.words.length := by omega
    have small : set.capacity % 64 < 64 := Nat.mod_lt _ (by omega)
    rw [@bitAt_modify { set with words := set.words.map fun _ => (0 : UInt64) - 1 } _ _ index
      (by simpa using last), bitAt_ones]
    split
    · rw [testBit_maskBit_sub_one small, decide_eq_decide]
      omega
    · rw [decide_eq_decide]
      omega

/-- Filling keeps a set fitting. -/
theorem Fits.fill {set : BitSet} (fits : set.Fits) : set.fill.Fits := by
  refine ⟨?_, fun index high => ?_⟩
  · rw [capacity_fill, ← fits.length_words, BitSet.fill]
    split <;> simp
  · rw [capacity_fill] at high
    rw [fits.bitAt_fill, decide_eq_false (by omega)]

/-- A filled set has all indices below its capacity. -/
theorem Fits.mem_fill {set : BitSet} (fits : set.Fits) {index : Nat} :
    index ∈ set.fill ↔ index < set.capacity := by
  rw [fits.fill.mem_iff, fits.bitAt_fill, decide_eq_true_iff]

/-! ## Emptiness and inclusion -/

/-- The bit of an index whose word is known. -/
theorem bitAt_of_word {set : BitSet} {place bit : Nat} {word : UInt64}
    (found : set.words[place]? = some word) (below : bit < 64) :
    set.bitAt (place * 64 + bit) = word.toNat.testBit bit := by
  have quotient : (place * 64 + bit) / 64 = place := by omega
  have remainder : (place * 64 + bit) % 64 = bit := by omega
  rw [bitAt, quotient, remainder, List.getD_eq_getElem?_getD, found, Option.getD_some]

/-- All words are zero exactly if no bit is set. -/
theorem isEmpty_iff_bitAt {set : BitSet} :
    set.isEmpty = true ↔ ∀ index, set.bitAt index = false := by
  simp only [isEmpty, List.all_eq_true, beq_iff_eq]
  constructor
  · intro zero index
    rw [bitAt, List.getD_eq_getElem?_getD]
    cases found : set.words[index / 64]? with
    | none => simp
    | some word => simp [zero word (List.mem_of_getElem? found)]
  · intro absent word member
    obtain ⟨place, found⟩ := List.mem_iff_getElem?.1 member
    refine eq_zero_iff_testBit.2 fun bit below => ?_
    rw [← bitAt_of_word found below, absent]

/-- A set that fits is empty exactly if nothing belongs to it. -/
theorem Fits.isEmpty_iff {set : BitSet} (fits : set.Fits) :
    set.isEmpty = true ↔ ∀ index, index ∉ set := by
  rw [isEmpty_iff_bitAt]
  exact forall_congr' fun index => by rw [fits.mem_iff, Bool.not_eq_true]

/-- One set is included in another exactly if their difference is empty. -/
theorem isSubset_eq (left right : BitSet) : left.isSubset right = (left.diff right).isEmpty := by
  have tested : List.zipWith (fun left right => left &&& ~~~ right == 0) left.words right.words =
      (List.zipWith (fun left right => left &&& ~~~ right) left.words right.words).map (· == 0) := by
    rw [List.map_zipWith]
  rw [isSubset, isEmpty, diff, combine, tested, List.all_map]
  rfl

/-- Inclusion of sets that fit a capacity is inclusion of their members. -/
theorem Fits.isSubset_iff {left right : BitSet} (leftFits : left.Fits) (rightFits : right.Fits)
    (capacity : left.capacity = right.capacity) :
    left.isSubset right = true ↔ ∀ index ∈ left, index ∈ right := by
  rw [isSubset_eq, (leftFits.diff rightFits capacity).isEmpty_iff]
  exact forall_congr' fun index => by
    rw [leftFits.mem_diff rightFits capacity, not_and, not_not]

/-! ## Listing and counting -/

/-- The indices of the bits set in words, the first of which stands at a position. -/
def membersFrom (position : Nat) : List UInt64 → List Nat
  | [] => []
  | word :: rest =>
    (wordMembers word).map (position * wordBits + ·) ++ membersFrom (position + 1) rest

/-- The indices listed for words are those of the bits set in them. -/
theorem mem_membersFrom {words : List UInt64} {position index : Nat} :
    index ∈ membersFrom position words ↔
      position ≤ index / 64 ∧
        (words.getD (index / 64 - position) 0).toNat.testBit (index % 64) = true := by
  induction words generalizing position with
  | nil => simp [membersFrom]
  | cons word rest restIH =>
    simp only [membersFrom, List.mem_append, List.mem_map, mem_wordMembers, restIH, wordBits]
    constructor
    · rintro (⟨bit, ⟨below, held⟩, rfl⟩ | ⟨later, held⟩)
      · have quotient : (position * 64 + bit) / 64 = position := by omega
        have remainder : (position * 64 + bit) % 64 = bit := by omega
        simpa [quotient, remainder] using held
      · have next : index / 64 - position = index / 64 - (position + 1) + 1 := by omega
        rw [next, List.getD_cons_succ]
        exact ⟨by omega, held⟩
    · rintro ⟨starts, held⟩
      by_cases here : index / 64 = position
      · refine .inl ⟨index % 64, ⟨Nat.mod_lt _ (by omega), ?_⟩, by omega⟩
        simpa [here] using held
      · have next : index / 64 - position = index / 64 - (position + 1) + 1 := by omega
        rw [next, List.getD_cons_succ] at held
        exact .inr ⟨by omega, held⟩

/-- The indices listed for words ascend. -/
theorem pairwise_membersFrom (position : Nat) (words : List UInt64) :
    (membersFrom position words).Pairwise (· < ·) := by
  induction words generalizing position with
  | nil => exact List.Pairwise.nil
  | cons word rest restIH =>
    refine List.pairwise_append.2 ⟨?_, restIH (position + 1), fun low lowMem high highMem => ?_⟩
    · rw [List.pairwise_map]
      exact (pairwise_wordMembers word).imp fun below => by omega
    · obtain ⟨bit, bitMem, rfl⟩ := List.mem_map.1 lowMem
      have bitBound := (mem_wordMembers.1 bitMem).1
      have placeBound := (mem_membersFrom.1 highMem).1
      simp only [wordBits]
      omega

/-- Words list at most as many indices as they have bits. -/
theorem length_membersFrom_le (position : Nat) (words : List UInt64) :
    (membersFrom position words).length ≤ words.length * wordBits := by
  induction words generalizing position with
  | nil => exact Nat.zero_le _
  | cons word rest restIH =>
    have here := length_wordMembers_le word
    have later := restIH (position + 1)
    rw [membersFrom, List.length_append, List.length_map, List.length_cons, Nat.succ_mul]
    omega

/-- A set lists the indices of the bits set in its words. -/
theorem toList_eq (set : BitSet) : set.toList = membersFrom 0 set.words := by
  have general : ∀ (words : List UInt64) (position : Nat),
      ((words.zipIdx position).flatMap fun entry =>
        (wordMembers entry.1).map (entry.2 * wordBits + ·)) = membersFrom position words := by
    intro words
    induction words with
    | nil => exact fun _ => rfl
    | cons word rest restIH =>
      intro position
      rw [List.zipIdx_cons, List.flatMap_cons, restIH (position + 1), membersFrom]
  exact general set.words 0

/-- The members listed are the bits set. -/
theorem mem_toList_iff_bitAt {set : BitSet} {index : Nat} :
    index ∈ set.toList ↔ set.bitAt index = true := by
  rw [toList_eq, mem_membersFrom, bitAt]
  simp

/-- The list of a set that fits lists its members. -/
theorem Fits.mem_toList {set : BitSet} (fits : set.Fits) {index : Nat} :
    index ∈ set.toList ↔ index ∈ set := by
  rw [fits.mem_iff, mem_toList_iff_bitAt]

/-- The list of a set ascends. -/
theorem pairwise_toList (set : BitSet) : set.toList.Pairwise (· < ·) :=
  toList_eq set ▸ pairwise_membersFrom 0 set.words

/-- The list of a set names no member twice. -/
theorem nodup_toList (set : BitSet) : set.toList.Nodup :=
  (pairwise_toList set).imp Nat.ne_of_lt

/-- A set counts as many members as it lists. -/
theorem count_eq_length (set : BitSet) : set.count = set.toList.length := by
  have general : ∀ (words : List UInt64) (position total : Nat),
      words.foldl (fun total word => total + (List.range wordBits).countP (testBit word)) total =
        total + (membersFrom position words).length := by
    intro words
    induction words with
    | nil => simp [membersFrom]
    | cons word rest restIH =>
      intro position total
      rw [List.foldl_cons, restIH (position + 1), membersFrom, List.length_append, List.length_map,
        wordMembers, List.countP_eq_length_filter, Nat.add_assoc]
  rw [count, general set.words 0 0, Nat.zero_add, toList_eq]

/-! ## Iteration -/

/-- The members that are still to come from a place of an iteration on. -/
def Cursor.members (cursor : Cursor) : List Nat :=
  membersFrom cursor.position (cursor.current :: cursor.later)

/-- A step takes the first of the members to come, and there is none if it ends. -/
theorem members_eq_nextFrom (position : Nat) (current : UInt64) (later : List UInt64) :
    membersFrom position (current :: later) =
      match nextFrom position current later with
      | none => []
      | some (index, after) => index :: after.members := by
  -- Each word without a bit to come is passed over.
  induction later generalizing position current with
  | nil =>
    by_cases zero : current = 0
    · simp [nextFrom, zero, membersFrom]
    · simp [nextFrom, zero, membersFrom, wordMembers_eq_cons zero, Cursor.members]
  | cons word rest restIH =>
    by_cases zero : current = 0
    · have passed := restIH (position + 1) word
      rw [membersFrom, zero, wordMembers_zero, List.map_nil, List.nil_append, passed, nextFrom]
      simp
    · simp [nextFrom, zero, membersFrom, wordMembers_eq_cons zero, Cursor.members]

/-- The members to come are the next one and those behind it. -/
theorem Cursor.members_eq (cursor : Cursor) :
    cursor.members = match cursor.next? with
      | none => []
      | some (index, after) => index :: after.members :=
  members_eq_nextFrom ..

/-- An iteration yields the indices of a list one after the other and then ends. -/
inductive Cursor.Yields : Cursor → List Nat → Prop
  /-- Nothing is yielded at the end. -/
  | done {cursor : Cursor} : cursor.next? = none → cursor.Yields []
  /-- An index is yielded, and then the others. -/
  | next {cursor after : Cursor} {index : Nat} {rest : List Nat} :
    cursor.next? = some (index, after) → after.Yields rest → cursor.Yields (index :: rest)

/-- An iteration yields the members to come. -/
theorem Cursor.yields_members (cursor : Cursor) : cursor.Yields cursor.members := by
  -- What is to come gets shorter with each step, while words may be passed over.
  generalize listed : cursor.members = indices
  induction indices generalizing cursor with
  | nil =>
    rw [members_eq] at listed
    cases step : cursor.next? with
    | none => exact .done step
    | some found =>
      rw [step] at listed
      cases listed
  | cons index rest restIH =>
    rw [members_eq] at listed
    cases step : cursor.next? with
    | none =>
      rw [step] at listed
      cases listed
    | some found =>
      rw [step, List.cons.injEq] at listed
      obtain ⟨rfl, later⟩ := listed
      exact .next step (restIH found.2 later)

/-- Collecting with a budget for all that is yielded gives just that. -/
theorem Cursor.Yields.collect_eq {cursor : Cursor} {indices : List Nat}
    (yields : cursor.Yields indices) {budget : Nat} (enough : indices.length ≤ budget) :
    cursor.collect budget = indices := by
  induction yields generalizing budget with
  | done ended =>
    cases budget with
    | zero => rfl
    | succ budget => simp [collect, ended]
  | next step _ restIH =>
    obtain _ | budget := budget
    · simp at enough
    · simp [collect, step, restIH (by simpa using enough)]

/-- Before the first member, all members are still to come. -/
theorem members_cursor (set : BitSet) : set.cursor.members = membersFrom 0 set.words := by
  obtain ⟨capacity, _ | ⟨word, rest⟩⟩ := set
  · simp [cursor, Cursor.members, membersFrom]
  · rfl

/-- The iteration over a set yields its list. -/
theorem yields_toList (set : BitSet) : set.cursor.Yields set.toList := by
  rw [toList_eq, ← members_cursor]
  exact Cursor.yields_members set.cursor

/-- The budget of the iteration suffices for the whole list. -/
theorem iterate_eq (set : BitSet) : set.iterate = set.toList := by
  refine (yields_toList set).collect_eq ?_
  rw [toList_eq]
  exact length_membersFrom_le 0 set.words

end BitSet

end Midend
