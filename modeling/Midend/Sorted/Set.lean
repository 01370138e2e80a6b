/-! # Sorted sets

A finite set kept as the strictly increasing list of its members. Because the list is determined
by the members (`SortedSet.ext`), two sets are equal exactly when they have the same members, and
every listing of a set comes out in ascending order. Lists that are no sets are sorted by insertion,
which is stable (`sortBy`). -/

namespace Midend

/-- `Ascending xs` says that every member of `xs` is strictly below all the later ones. -/
abbrev Ascending {α : Type} [Ord α] (xs : List α) : Prop :=
  xs.Pairwise fun earlier later => compare earlier later = .lt

/-- The list without members is ascending. -/
theorem ascending_nil {α : Type} [Ord α] : Ascending ([] : List α) := List.Pairwise.nil

/-- A finite set, kept as the strictly increasing list of its members. -/
structure SortedSet (α : Type) [Ord α] where
  /-- The members in ascending order. -/
  toList : List α
  /-- No member is listed twice or out of order. -/
  ascending : Ascending toList

namespace SortedSet

variable {α : Type} [Ord α]

instance [DecidableEq α] : DecidableEq (SortedSet α) := fun left right =>
  match decEq left.toList right.toList with
  | isTrue same => isTrue (by cases left; cases right; simp_all)
  | isFalse different => isFalse fun same => different (by rw [same])

instance : Membership α (SortedSet α) := ⟨fun set member => member ∈ set.toList⟩

/-- Membership reads the list of members. -/
theorem mem_def {member : α} {set : SortedSet α} : member ∈ set ↔ member ∈ set.toList := Iff.rfl

instance [DecidableEq α] (member : α) (set : SortedSet α) : Decidable (member ∈ set) :=
  inferInstanceAs (Decidable (member ∈ set.toList))

/-- Whether `member` belongs to the set. -/
def contains [DecidableEq α] (set : SortedSet α) (member : α) : Bool := decide (member ∈ set)

/-- The set without members. -/
def empty : SortedSet α := ⟨[], ascending_nil⟩

instance : Inhabited (SortedSet α) := ⟨empty⟩

/-- The number of members. -/
def size (set : SortedSet α) : Nat := set.toList.length

/-- Whether the set has no member. -/
def isEmpty (set : SortedSet α) : Bool := set.toList.isEmpty

/-- Nothing belongs to the empty set. -/
@[simp] theorem not_mem_empty (member : α) : member ∉ (empty : SortedSet α) := by
  simp [mem_def, empty]

/-! ## Insertion -/

/-- Adds `member` to an ascending list, unless it is there already. -/
def insertList (member : α) : List α → List α
  | [] => [member]
  | head :: tail =>
    match compare member head with
    | .lt => member :: head :: tail
    | .eq => head :: tail
    | .gt => head :: insertList member tail

variable [Std.LawfulEqOrd α]

/-- Insertion adds `member` and keeps everything else. -/
theorem mem_insertList {member other : α} {members : List α} :
    other ∈ insertList member members ↔ other = member ∨ other ∈ members := by
  induction members with
  | nil => simp [insertList]
  | cons head tail tailIH =>
    unfold insertList
    split
    · simp
    · rename_i same
      have : member = head := Std.LawfulEqOrd.eq_of_compare same
      grind
    · grind

variable [Std.TransOrd α]

/-- Insertion keeps an ascending list ascending. -/
theorem ascending_insertList {member : α} {members : List α} (ascending : Ascending members) :
    Ascending (insertList member members) := by
  induction members with
  | nil => simp [insertList]
  | cons head tail tailIH =>
    unfold insertList
    rw [Ascending, List.pairwise_cons] at ascending
    split
    · rename_i below
      refine List.pairwise_cons.2 ⟨?_, List.pairwise_cons.2 ascending⟩
      intro later laterMem
      rcases List.mem_cons.1 laterMem with rfl | inTail
      · exact below
      · exact Std.TransCmp.lt_trans below (ascending.1 later inTail)
    · exact List.pairwise_cons.2 ascending
    · rename_i above
      refine List.pairwise_cons.2 ⟨?_, tailIH ascending.2⟩
      intro later laterMem
      rcases mem_insertList.1 laterMem with rfl | inTail
      · exact Std.OrientedCmp.lt_of_gt above
      · exact ascending.1 later inTail

/-- Adds a member. -/
def insert (set : SortedSet α) (member : α) : SortedSet α :=
  ⟨insertList member set.toList, ascending_insertList set.ascending⟩

/-- The members after an insertion. -/
@[simp] theorem mem_insert {set : SortedSet α} {member other : α} :
    other ∈ set.insert member ↔ other = member ∨ other ∈ set := mem_insertList

/-- The set of the members of a list. -/
def ofList (members : List α) : SortedSet α := members.foldl insert empty

/-! ## Removal and selection -/

omit [Std.LawfulEqOrd α] [Std.TransOrd α] in
/-- Selecting members of an ascending list keeps it ascending. -/
theorem ascending_filter {members : List α} (keep : α → Bool) (ascending : Ascending members) :
    Ascending (members.filter keep) := List.Pairwise.filter keep ascending

/-- The members that pass `keep`. -/
def filter (keep : α → Bool) (set : SortedSet α) : SortedSet α :=
  ⟨set.toList.filter keep, ascending_filter keep set.ascending⟩

omit [Std.LawfulEqOrd α] [Std.TransOrd α] in
/-- The members after a selection. -/
@[simp] theorem mem_filter {set : SortedSet α} {keep : α → Bool} {member : α} :
    member ∈ set.filter keep ↔ member ∈ set ∧ keep member = true := by
  simp [mem_def, filter]

/-- Removes a member. -/
def erase [DecidableEq α] (set : SortedSet α) (member : α) : SortedSet α :=
  set.filter fun other => other ≠ member

omit [Std.LawfulEqOrd α] [Std.TransOrd α] in
/-- The members after a removal. -/
@[simp] theorem mem_erase [DecidableEq α] {set : SortedSet α} {member other : α} :
    other ∈ set.erase member ↔ other ≠ member ∧ other ∈ set := by
  simp [erase, and_comm]

/-! ## Union -/

/-- Merges the ascending list `head :: tail` into another, given how to merge `tail`. -/
def mergeHead (head : α) (mergeTail : List α → List α) : List α → List α
  | [] => head :: mergeTail []
  | other :: others =>
    match compare head other with
    | .lt => head :: mergeTail (other :: others)
    | .eq => head :: mergeTail others
    | .gt => other :: mergeHead head mergeTail others

/-- Merges two ascending lists, keeping one copy of what both hold. -/
def mergeLists : List α → List α → List α
  | [] => fun others => others
  | head :: tail => mergeHead head (mergeLists tail)

omit [Std.TransOrd α] in
/-- A merge holds what either list holds. -/
theorem mem_mergeLists {member : α} {left right : List α} :
    member ∈ mergeLists left right ↔ member ∈ left ∨ member ∈ right := by
  induction left generalizing right with
  | nil => simp [mergeLists]
  | cons head tail tailIH =>
    unfold mergeLists
    induction right with
    | nil => simp [mergeHead, tailIH]
    | cons other others othersIH =>
      unfold mergeHead
      split
      · simp [tailIH, or_assoc]
      · rename_i same
        have : head = other := Std.LawfulEqOrd.eq_of_compare same
        grind
      · grind

/-- Merging keeps ascending lists ascending. -/
theorem ascending_mergeLists {left right : List α} (leftAscending : Ascending left)
    (rightAscending : Ascending right) : Ascending (mergeLists left right) := by
  induction left generalizing right with
  | nil => simpa [mergeLists] using rightAscending
  | cons head tail tailIH =>
    rw [Ascending, List.pairwise_cons] at leftAscending
    unfold mergeLists
    -- The inner induction is the recursion of the merge on its second list, below a fixed head of
    -- the first.
    induction right with
    | nil =>
      refine List.pairwise_cons.2 ⟨?_, tailIH leftAscending.2 List.Pairwise.nil⟩
      intro later laterMem
      rcases mem_mergeLists.1 laterMem with inTail | inNil
      · exact leftAscending.1 later inTail
      · cases inNil
    | cons other others othersIH =>
      have rightCons := rightAscending
      rw [Ascending, List.pairwise_cons] at rightCons
      unfold mergeHead
      split
      · rename_i below
        refine List.pairwise_cons.2 ⟨?_, tailIH leftAscending.2 rightAscending⟩
        intro later laterMem
        rcases mem_mergeLists.1 laterMem with inTail | inRight
        · exact leftAscending.1 later inTail
        · rcases List.mem_cons.1 inRight with rfl | inOthers
          · exact below
          · exact Std.TransCmp.lt_trans below (rightCons.1 later inOthers)
      · rename_i same
        have headEq : head = other := Std.LawfulEqOrd.eq_of_compare same
        refine List.pairwise_cons.2 ⟨?_, tailIH leftAscending.2 rightCons.2⟩
        intro later laterMem
        rcases mem_mergeLists.1 laterMem with inTail | inOthers
        · exact leftAscending.1 later inTail
        · exact headEq ▸ rightCons.1 later inOthers
      · rename_i above
        refine List.pairwise_cons.2 ⟨?_, othersIH rightCons.2⟩
        intro later laterMem
        have merged : later ∈ mergeLists (head :: tail) others := laterMem
        rcases mem_mergeLists.1 merged with inLeft | inOthers
        · rcases List.mem_cons.1 inLeft with rfl | inTail
          · exact Std.OrientedCmp.lt_of_gt above
          · exact Std.TransCmp.lt_trans (Std.OrientedCmp.lt_of_gt above)
              (leftAscending.1 later inTail)
        · exact rightCons.1 later inOthers

/-- The members of either set. -/
def union (left right : SortedSet α) : SortedSet α :=
  ⟨mergeLists left.toList right.toList, ascending_mergeLists left.ascending right.ascending⟩

/-- The members of a union. -/
@[simp] theorem mem_union {left right : SortedSet α} {member : α} :
    member ∈ left.union right ↔ member ∈ left ∨ member ∈ right := mem_mergeLists

/-! ## Equality -/

omit [Std.LawfulEqOrd α] in
/-- Ascending lists with the same members are equal. -/
theorem eq_of_ascending {left right : List α} (leftAscending : Ascending left)
    (rightAscending : Ascending right) (same : ∀ member, member ∈ left ↔ member ∈ right) :
    left = right := by
  induction left generalizing right with
  | nil =>
    cases right with
    | nil => rfl
    | cons head tail => exact absurd ((same head).2 (by simp)) (by simp)
  | cons head tail tailIH =>
    cases right with
    | nil => exact absurd ((same head).1 (by simp)) (by simp)
    | cons other others =>
      rw [Ascending, List.pairwise_cons] at leftAscending rightAscending
      have irreflexive : ∀ member : α, compare member member ≠ .lt := by
        intro member; simp [Std.ReflCmp.compare_self]
      -- Each head is in the other list; if they were different, each would be below the other.
      have headEq : head = other := by
        rcases List.mem_cons.1 ((same head).1 (by simp)) with eq | inOthers
        · exact eq
        · rcases List.mem_cons.1 ((same other).2 (by simp)) with eq | inTail
          · exact eq.symm
          · exact absurd (Std.TransCmp.lt_trans (leftAscending.1 other inTail)
              (rightAscending.1 head inOthers)) (irreflexive head)
      subst headEq
      congr 1
      refine tailIH leftAscending.2 rightAscending.2 fun member => ?_
      have iff := same member
      constructor
      · intro inTail
        rcases List.mem_cons.1 (iff.1 (List.mem_cons_of_mem _ inTail)) with rfl | inOthers
        · exact absurd (leftAscending.1 _ inTail) (irreflexive _)
        · exact inOthers
      · intro inOthers
        rcases List.mem_cons.1 (iff.2 (List.mem_cons_of_mem _ inOthers)) with rfl | inTail
        · exact absurd (rightAscending.1 _ inOthers) (irreflexive _)
        · exact inTail

omit [Std.LawfulEqOrd α] in
/-- A sorted set is determined by its members. -/
@[ext] theorem ext {left right : SortedSet α} (same : ∀ member, member ∈ left ↔ member ∈ right) :
    left = right := by
  cases left; cases right
  simp only [SortedSet.mk.injEq]
  exact eq_of_ascending ‹_› ‹_› same

end SortedSet

/-! ## Sorting -/

section

variable {α : Type}

/-- Puts an element in front of the first one that it may stand before. -/
def insertBy (before : α → α → Bool) (element : α) : List α → List α
  | [] => [element]
  | head :: tail =>
    if before element head then element :: head :: tail
    else head :: insertBy before element tail

/-- Sorts a list; elements that may stand before each other keep their order. -/
def sortBy (before : α → α → Bool) : List α → List α
  | [] => []
  | head :: tail => insertBy before head (sortBy before tail)

/-- Insertion adds one element. -/
theorem insertBy_perm (before : α → α → Bool) (element : α) (list : List α) :
    (insertBy before element list).Perm (element :: list) := by
  induction list with
  | nil => exact .refl _
  | cons head tail tailIH =>
    unfold insertBy
    split
    · exact .refl _
    · exact (tailIH.cons head).trans (.swap element head tail)

/-- Sorting only reorders. -/
theorem sortBy_perm (before : α → α → Bool) (list : List α) : (sortBy before list).Perm list := by
  induction list with
  | nil => exact .refl _
  | cons head tail tailIH =>
    exact (insertBy_perm before head (sortBy before tail)).trans (tailIH.cons head)

end

end Midend
