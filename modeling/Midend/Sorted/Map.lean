import Midend.Sorted.Set

/-! # Sorted maps

A finite map kept as the list of its entries in strictly increasing key order. A map is determined
by its lookups (`SortedMap.ext`), and listing its entries, keys or values follows the keys. -/

namespace Midend

/-- A finite map, kept as its entries in strictly increasing key order. -/
structure SortedMap (κ : Type) (ν : Type) [Ord κ] where
  /-- The entries in ascending key order. -/
  toList : List (κ × ν)
  /-- No key is listed twice or out of order. -/
  ascending : Ascending (toList.map Prod.fst)

namespace SortedMap

variable {κ ν μ : Type} [Ord κ]

instance [DecidableEq κ] [DecidableEq ν] : DecidableEq (SortedMap κ ν) := fun left right =>
  match decEq left.toList right.toList with
  | isTrue same => isTrue (by cases left; cases right; simp_all)
  | isFalse different => isFalse fun same => different (by rw [same])

/-- The map without entries. -/
def empty : SortedMap κ ν := ⟨[], ascending_nil⟩

instance : Inhabited (SortedMap κ ν) := ⟨empty⟩

/-- The keys in ascending order. -/
def keys (map : SortedMap κ ν) : List κ := map.toList.map Prod.fst

/-- The values in the order of their keys. -/
def values (map : SortedMap κ ν) : List ν := map.toList.map Prod.snd

/-- The number of entries. -/
def size (map : SortedMap κ ν) : Nat := map.toList.length

/-- Whether the map has no entry. -/
def isEmpty (map : SortedMap κ ν) : Bool := map.toList.isEmpty

/-- The set of keys. -/
def keySet (map : SortedMap κ ν) : SortedSet κ := ⟨map.keys, map.ascending⟩

/-! ## Lookup -/

/-- The value that a list of entries first gives to a key. -/
def lookupList (key : κ) : List (κ × ν) → Option ν
  | [] => none
  | (head, value) :: tail =>
    match compare key head with
    | .eq => some value
    | _ => lookupList key tail

/-- The value of a key. -/
def get? (map : SortedMap κ ν) (key : κ) : Option ν := lookupList key map.toList

/-- The value of a key, or `fallback` when it has none. -/
def getD (map : SortedMap κ ν) (key : κ) (fallback : ν) : ν := (map.get? key).getD fallback

/-- Whether the key has a value. -/
def contains (map : SortedMap κ ν) (key : κ) : Bool := (map.get? key).isSome

/-- The empty map has no values. -/
@[simp] theorem get?_empty (key : κ) : (empty : SortedMap κ ν).get? key = none := rfl

/-! ## Insertion -/

/-- Sets the value of `key` in a list of entries in ascending key order. -/
def insertList (key : κ) (value : ν) : List (κ × ν) → List (κ × ν)
  | [] => [(key, value)]
  | (head, current) :: tail =>
    match compare key head with
    | .lt => (key, value) :: (head, current) :: tail
    | .eq => (key, value) :: tail
    | .gt => (head, current) :: insertList key value tail

variable [Std.LawfulEqOrd κ]

/-- Setting a value adds its key and keeps the others. -/
theorem map_fst_insertList (key : κ) (value : ν) (entries : List (κ × ν)) :
    (insertList key value entries).map Prod.fst =
      SortedSet.insertList key (entries.map Prod.fst) := by
  induction entries with
  | nil => rfl
  | cons entry tail tailIH =>
    obtain ⟨head, current⟩ := entry
    simp only [insertList, List.map_cons, SortedSet.insertList]
    cases order : compare key head with
    | lt => rfl
    | eq => simp [Std.LawfulEqOrd.eq_of_compare order]
    | gt => simp [tailIH]

variable [Std.TransOrd κ]

/-- Sets the value of a key. -/
def insert (map : SortedMap κ ν) (key : κ) (value : ν) : SortedMap κ ν :=
  ⟨insertList key value map.toList, by
    rw [map_fst_insertList]; exact SortedSet.ascending_insertList map.ascending⟩

omit [Std.TransOrd κ] in
/-- Looking up after setting a value in a list of entries. -/
theorem lookupList_insertList (key other : κ) (value : ν) (entries : List (κ × ν)) :
    lookupList other (insertList key value entries) =
      if compare other key = .eq then some value else lookupList other entries := by
  induction entries with
  | nil => simp only [insertList, lookupList]; split <;> simp_all
  | cons entry tail tailIH =>
    obtain ⟨head, current⟩ := entry
    unfold insertList
    split <;> rename_i order
    · simp only [lookupList]; split <;> simp_all
    · have keyEq : key = head := Std.LawfulEqOrd.eq_of_compare order
      subst keyEq
      simp only [lookupList]; split <;> simp_all
    · simp only [lookupList]
      split
      · rename_i same
        have otherEq : other = head := Std.LawfulEqOrd.eq_of_compare same
        subst otherEq
        have : compare other key ≠ .eq := by
          intro eq
          rw [Std.LawfulEqOrd.eq_of_compare eq] at order
          simp [Std.ReflCmp.compare_self] at order
        simp [this]
      · exact tailIH

/-- Looking up after setting a value. -/
theorem get?_insert (map : SortedMap κ ν) (key other : κ) (value : ν) :
    (map.insert key value).get? other =
      if compare other key = .eq then some value else map.get? other :=
  lookupList_insertList key other value map.toList

/-- The map that gives each key the last value listed for it. -/
def ofList (entries : List (κ × ν)) : SortedMap κ ν :=
  entries.foldl (fun map entry => map.insert entry.1 entry.2) empty

/-- Sets the value of a key from its current one, when it has one. -/
def alter (map : SortedMap κ ν) (key : κ) (change : Option ν → ν) : SortedMap κ ν :=
  map.insert key (change (map.get? key))

/-- Sets the value of a key unless it has one already. -/
def insertIfNew (map : SortedMap κ ν) (key : κ) (value : ν) : SortedMap κ ν :=
  if map.contains key then map else map.insert key value

/-! ## Removal, selection and change of values -/

omit [Std.LawfulEqOrd κ] [Std.TransOrd κ] in
/-- Selecting entries keeps the keys ascending. -/
theorem ascending_filter {entries : List (κ × ν)} (keep : κ × ν → Bool)
    (ascending : Ascending (entries.map Prod.fst)) :
    Ascending ((entries.filter keep).map Prod.fst) :=
  List.Pairwise.sublist (List.Sublist.map _ List.filter_sublist) ascending

/-- The entries that pass `keep`. -/
def filter (keep : κ → ν → Bool) (map : SortedMap κ ν) : SortedMap κ ν :=
  ⟨map.toList.filter fun entry => keep entry.1 entry.2, ascending_filter _ map.ascending⟩

/-- Removes a key and its value. -/
def erase [DecidableEq κ] (map : SortedMap κ ν) (key : κ) : SortedMap κ ν :=
  map.filter fun other _ => other ≠ key

/-- Changes every value, keeping the keys. -/
def mapValues (change : κ → ν → μ) (map : SortedMap κ ν) : SortedMap κ μ :=
  ⟨map.toList.map fun entry => (entry.1, change entry.1 entry.2), by
    have keysEq : (map.toList.map fun entry => (entry.1, change entry.1 entry.2)).map Prod.fst =
        map.toList.map Prod.fst := by simp
    rw [keysEq]; exact map.ascending⟩

/-- Folds over the entries in ascending key order. -/
def foldl {σ : Type} (step : σ → κ → ν → σ) (start : σ) (map : SortedMap κ ν) : σ :=
  map.toList.foldl (fun state entry => step state entry.1 entry.2) start

omit [Std.TransOrd κ] in
/-- Looking up in a list of entries from which a key was removed. -/
theorem lookupList_filter_ne [DecidableEq κ] (key other : κ) (entries : List (κ × ν)) :
    lookupList other (entries.filter fun entry => entry.1 ≠ key) =
      if other = key then none else lookupList other entries := by
  induction entries with
  | nil => simp [lookupList]
  | cons entry tail tailIH =>
    obtain ⟨head, value⟩ := entry
    have keep_eq : (other = head) ↔ compare other head = .eq :=
      Std.LawfulEqOrd.compare_eq_iff_eq.symm
    rw [List.filter_cons]
    by_cases removed : head = key
    · subst removed
      by_cases same : other = head
      · simpa [same] using tailIH
      · have apart : compare other head ≠ .eq := fun eq => same (keep_eq.2 eq)
        simpa [same, lookupList, apart] using tailIH
    · by_cases same : other = key
      · subst same
        have apart : compare other head ≠ .eq := fun eq => removed (keep_eq.2 eq).symm
        simpa [removed, lookupList, apart] using tailIH
      · rw [if_neg same] at tailIH ⊢
        cases order : compare other head <;> simp [removed, lookupList, order, ← tailIH]

omit [Std.TransOrd κ] in
/-- Looking up after removing a key. -/
theorem get?_erase [DecidableEq κ] (map : SortedMap κ ν) (key other : κ) :
    (map.erase key).get? other = if other = key then none else map.get? other :=
  lookupList_filter_ne key other map.toList

/-! ## Equality -/

omit [Std.TransOrd κ] in
/-- A list of entries gives no value to exactly the keys that it does not list. -/
theorem lookupList_eq_none_iff {key : κ} {entries : List (κ × ν)} :
    lookupList key entries = none ↔ key ∉ entries.map Prod.fst := by
  induction entries with
  | nil => simp [lookupList]
  | cons entry tail tailIH =>
    obtain ⟨head, value⟩ := entry
    cases order : compare key head with
    | eq => simp [lookupList, Std.LawfulEqOrd.eq_of_compare order]
    | lt | gt =>
      have apart : key ≠ head := by
        rintro rfl
        simp [Std.ReflCmp.compare_self] at order
      simp_all [lookupList]

/-- Lists of entries in ascending key order that give every key the same value are equal. -/
theorem eq_of_lookupList {left right : List (κ × ν)} (leftAscending : Ascending (left.map Prod.fst))
    (rightAscending : Ascending (right.map Prod.fst))
    (same : ∀ key, lookupList key left = lookupList key right) : left = right := by
  have keysEq : left.map Prod.fst = right.map Prod.fst :=
    SortedSet.eq_of_ascending leftAscending rightAscending fun key => by
      have absent : key ∉ left.map Prod.fst ↔ key ∉ right.map Prod.fst := by
        rw [← lookupList_eq_none_iff, ← lookupList_eq_none_iff, same key]
      exact ⟨fun listed => Classical.byContradiction fun missing => absent.2 missing listed,
        fun listed => Classical.byContradiction fun missing => absent.1 missing listed⟩
  induction left generalizing right with
  | nil => simp_all
  | cons entry tail tailIH =>
    obtain ⟨head, value⟩ := entry
    cases right with
    | nil => simp at keysEq
    | cons other others =>
      obtain ⟨otherHead, otherValue⟩ := other
      simp only [List.map_cons, List.cons.injEq] at keysEq
      obtain ⟨rfl, tailKeys⟩ := keysEq
      simp only [Ascending, List.map_cons, List.pairwise_cons] at leftAscending rightAscending
      have valueEq := same head
      simp only [lookupList, Std.ReflCmp.compare_self, Option.some.injEq] at valueEq
      subst valueEq
      congr 1
      refine tailIH leftAscending.2 rightAscending.2 (fun key => ?_) tailKeys
      -- The head key is in neither tail; any other key is looked up behind the heads.
      cases order : compare key head with
      | eq =>
        obtain rfl := Std.LawfulEqOrd.eq_of_compare order
        have absent : key ∉ tail.map Prod.fst := fun listed => by
          have := leftAscending.1 key listed
          simp [Std.ReflCmp.compare_self] at this
        rw [lookupList_eq_none_iff.2 absent, lookupList_eq_none_iff.2 (tailKeys ▸ absent)]
      | lt | gt =>
        have rest := same key
        simpa [lookupList, order] using rest

/-- A sorted map is determined by its lookups. -/
@[ext] theorem ext {left right : SortedMap κ ν} (same : ∀ key, left.get? key = right.get? key) :
    left = right := by
  cases left; cases right
  simp only [SortedMap.mk.injEq]
  exact eq_of_lookupList ‹_› ‹_› same

end SortedMap

end Midend
