import Mathlib.Algebra.GroupWithZero.Nat
import Mathlib.Data.List.Sort
import Midend.BitSet

/-! # Bits of a word

A word is read through `Nat.testBit` of its number: masks and complements have the bits they should
(`testBit_maskBit`, `testBit_not`), words with the same bits are equal (`word_ext`), and taking the
lowest set bit and clearing it goes through the set bits in ascending order
(`wordMembers_eq_cons`). -/

namespace Midend

namespace BitSet

/-! ## Masks -/

/-- The mask of a bit is a power of two. -/
theorem toNat_maskBit {bit : Nat} (below : bit < 64) : (maskBit bit).toNat = 2 ^ bit := by
  have small : 2 ^ bit < 2 ^ 64 := Nat.pow_lt_pow_right (by omega) below
  have exact : bit % 2 ^ 64 % 64 = bit := by omega
  rw [maskBit, UInt64.toNat_shiftLeft, UInt64.toNat_ofNat', exact]
  rw [UInt64.toNat_one, Nat.shiftLeft_eq, Nat.one_mul, Nat.mod_eq_of_lt small]

/-- A mask has its own bit only. -/
theorem testBit_maskBit {bit : Nat} (below : bit < 64) (other : Nat) :
    (maskBit bit).toNat.testBit other = decide (bit = other) := by
  rw [toNat_maskBit below, Nat.testBit_two_pow]

/-- One less than the mask of a bit has all the bits below it. -/
theorem testBit_maskBit_sub_one {bit : Nat} (below : bit < 64) (other : Nat) :
    (maskBit bit - 1).toNat.testBit other = decide (other < bit) := by
  have positive : 1 ≤ maskBit bit := by
    rw [UInt64.le_iff_toNat_le, toNat_maskBit below]
    exact Nat.one_le_two_pow
  rw [UInt64.toNat_sub_of_le _ _ positive, toNat_maskBit below, UInt64.toNat_one,
    Nat.testBit_two_pow_sub_one]

/-- One less than the zero word has all bits. -/
theorem testBit_zero_sub_one (bit : Nat) :
    ((0 : UInt64) - 1).toNat.testBit bit = decide (bit < 64) := by
  have all : ((0 : UInt64) - 1).toNat = 2 ^ 64 - 1 := rfl
  rw [all, Nat.testBit_two_pow_sub_one]

/-- The complement of a word has the bits that the word has not. -/
theorem testBit_not (word : UInt64) {bit : Nat} (below : bit < 64) :
    (~~~ word).toNat.testBit bit = !word.toNat.testBit bit := by
  rw [← UInt64.toNat_toBitVec, UInt64.toBitVec_not, BitVec.testBit_toNat, BitVec.getLsbD_not,
    decide_eq_true below, Bool.true_and, ← BitVec.testBit_toNat, UInt64.toNat_toBitVec]

/-! ## Words and their bits -/

/-- Testing a bit of a word is testing that bit of its number. -/
theorem testBit_eq (word : UInt64) {bit : Nat} (below : bit < 64) :
    testBit word bit = word.toNat.testBit bit := by
  have masked : (word &&& maskBit bit).toNat = word.toNat &&& 2 ^ bit := by
    rw [UInt64.toNat_and, toNat_maskBit below]
  cases held : word.toNat.testBit bit with
  | true =>
    have nonzero : word &&& maskBit bit ≠ 0 := by
      intro zero
      rw [zero] at masked
      have bits := congrArg (Nat.testBit · bit) masked
      simp [Nat.testBit_and, held] at bits
    simp [testBit, nonzero]
  | false =>
    have zero : word &&& maskBit bit = 0 := by
      rw [← UInt64.toNat_inj, masked]
      apply Nat.eq_of_testBit_eq
      intro other
      rw [Nat.testBit_and, Nat.testBit_two_pow]
      by_cases same : bit = other
      · subst same; simp [held]
      · simp [same]
    simp [testBit, zero]

/-- A word has no bit beyond its width. -/
theorem testBit_high (word : UInt64) {bit : Nat} (high : 64 ≤ bit) :
    word.toNat.testBit bit = false :=
  Nat.testBit_lt_two_pow
    (Nat.lt_of_lt_of_le word.toNat_lt (Nat.pow_le_pow_right (by omega) high))

/-- Words with the same bits are equal. -/
theorem word_ext {left right : UInt64}
    (same : ∀ bit < 64, left.toNat.testBit bit = right.toNat.testBit bit) : left = right := by
  rw [← UInt64.toNat_inj]
  apply Nat.eq_of_testBit_eq
  intro bit
  by_cases below : bit < 64
  · exact same bit below
  · rw [testBit_high left (by omega), testBit_high right (by omega)]

/-- The zero word is the one without bits. -/
theorem eq_zero_iff_testBit {word : UInt64} :
    word = 0 ↔ ∀ bit < 64, word.toNat.testBit bit = false := by
  constructor
  · rintro rfl bit -
    simp
  · intro none
    exact word_ext fun bit below => by simp [none bit below]

/-! ## The lowest bit -/

/-- Below a nonzero word's lowest bit there is no other. -/
theorem lowestBit_spec {word : UInt64} (nonzero : word ≠ 0) :
    lowestBit word < 64 ∧ word.toNat.testBit (lowestBit word) = true ∧
      ∀ bit < lowestBit word, word.toNat.testBit bit = false := by
  have found : ∃ bit ∈ List.range wordBits, testBit word bit = true := by
    by_contra none
    refine nonzero (eq_zero_iff_testBit.2 fun bit below => ?_)
    rw [← testBit_eq word below, ← Bool.not_eq_true]
    exact fun held => none ⟨bit, List.mem_range.2 below, held⟩
  have inside := List.findIdx_lt_length.2 found
  have below : lowestBit word < 64 := by simpa [lowestBit, wordBits] using inside
  refine ⟨below, ?_, fun bit lower => ?_⟩
  · rw [← testBit_eq word below, lowestBit]
    simpa using List.findIdx_getElem (w := inside)
  · rw [← testBit_eq word (by omega)]
    simpa using List.not_of_lt_findIdx lower

/-- A number and its predecessor have in common all bits but the lowest one: borrowing turns the
zeros below that one into ones and leaves what is above it. -/
theorem testBit_and_sub_one {number lowest : Nat} (held : number.testBit lowest = true)
    (least : ∀ bit < lowest, number.testBit bit = false) (bit : Nat) :
    (number &&& (number - 1)).testBit bit = (decide (bit ≠ lowest) && number.testBit bit) := by
  -- The lowest bit moves down by one when the number is halved.
  induction lowest generalizing number bit with
  | zero =>
    have odd : number % 2 = 1 := by simpa [Nat.testBit_zero] using held
    cases bit with
    | zero =>
      have even : (number - 1) % 2 = 0 := by omega
      simp [Nat.testBit_zero, even]
    | succ bit =>
      have halved : (number - 1) / 2 = number / 2 := by omega
      rw [Nat.testBit_succ, Nat.and_div_two, halved, Nat.and_self, Nat.testBit_succ]
      simp
  | succ lowest lowerIH =>
    have even : number % 2 = 0 := by
      have absent := least 0 (by omega)
      simpa [Nat.testBit_zero] using absent
    cases bit with
    | zero => simp [Nat.testBit_zero, even]
    | succ bit =>
      have halved : (number - 1) / 2 = number / 2 - 1 := by omega
      have lower := @lowerIH (number / 2) (by rwa [← Nat.testBit_succ])
        (fun other below => by
          rw [← Nat.testBit_succ]
          exact least (other + 1) (by omega)) bit
      rw [Nat.testBit_succ, Nat.and_div_two, halved, lower, Nat.testBit_succ]
      simp

/-- Clearing the lowest bit leaves the others. -/
theorem testBit_clearLowest {word : UInt64} (nonzero : word ≠ 0) (bit : Nat) :
    (clearLowest word).toNat.testBit bit =
      (decide (bit ≠ lowestBit word) && word.toNat.testBit bit) := by
  obtain ⟨-, held, least⟩ := lowestBit_spec nonzero
  have positive : (1 : UInt64) ≤ word := by
    rw [UInt64.le_iff_toNat_le, UInt64.toNat_one, Nat.one_le_iff_ne_zero]
    exact fun zero => nonzero (UInt64.toNat_inj.1 zero)
  rw [clearLowest, UInt64.toNat_and, UInt64.toNat_sub_of_le _ _ positive, UInt64.toNat_one,
    testBit_and_sub_one held least]

/-! ## The members of a word -/

/-- The bits listed for a word are those set in it. -/
theorem mem_wordMembers {word : UInt64} {bit : Nat} :
    bit ∈ wordMembers word ↔ bit < 64 ∧ word.toNat.testBit bit = true := by
  rw [wordMembers, List.mem_filter, List.mem_range, wordBits]
  refine and_congr_right fun below => ?_
  rw [testBit_eq word below]

/-- The bits of a word are listed in ascending order. -/
theorem pairwise_wordMembers (word : UInt64) : (wordMembers word).Pairwise (· < ·) :=
  List.pairwise_lt_range.filter _

/-- The zero word has no members. -/
@[simp] theorem wordMembers_zero : wordMembers 0 = [] := rfl

/-- A word has at most as many members as bits. -/
theorem length_wordMembers_le (word : UInt64) : (wordMembers word).length ≤ wordBits := by
  simpa [wordMembers] using List.length_filter_le (testBit word) (List.range wordBits)

/-- The members of a nonzero word are its lowest bit and then those left when that is cleared. -/
theorem wordMembers_eq_cons {word : UInt64} (nonzero : word ≠ 0) :
    wordMembers word = lowestBit word :: wordMembers (clearLowest word) := by
  obtain ⟨below, held, least⟩ := lowestBit_spec nonzero
  have ascending : (lowestBit word :: wordMembers (clearLowest word)).Pairwise (· < ·) := by
    refine List.pairwise_cons.2 ⟨fun bit member => ?_, pairwise_wordMembers _⟩
    have left := (mem_wordMembers.1 member).2
    rw [testBit_clearLowest nonzero, Bool.and_eq_true, decide_eq_true_eq] at left
    -- A lower bit would contradict that the cleared one was the lowest.
    by_contra above
    have lower : bit < lowestBit word := by omega
    simp [least bit lower] at left
  refine (pairwise_wordMembers word).eq_of_mem_iff ascending fun bit => ?_
  rw [List.mem_cons, mem_wordMembers, mem_wordMembers, testBit_clearLowest nonzero]
  by_cases same : bit = lowestBit word
  · simp [same, below, held]
  · simp [same]

end BitSet

end Midend
