import Mathlib.Algebra.GroupWithZero.Nat
import Mathlib.Data.List.Nodup
import Midend.Sorted.Map

/-! # Laws of sorted sets and maps

What the listings and lookups of sorted collections say after each operation, in terms of equality
of members and keys. -/

namespace Midend

/-- An ascending list names nothing twice. -/
theorem Ascending.nodup {α : Type} [Ord α] [Std.ReflOrd α] {list : List α}
    (ascending : Ascending list) : list.Nodup := by
  refine ascending.imp fun below same => ?_
  subst same
  simp [Std.ReflCmp.compare_self] at below

namespace SortedSet

variable {α : Type} [Ord α]

/-- A set lists no member twice. -/
theorem nodup_toList [Std.ReflOrd α] (set : SortedSet α) : set.toList.Nodup := set.ascending.nodup

/-- Containment as a truth value is membership. -/
@[simp] theorem contains_iff [DecidableEq α] {set : SortedSet α} {member : α} :
    set.contains member = true ↔ member ∈ set := by
  simp [contains]

/-- Membership of the list of members. -/
@[simp] theorem mem_toList {set : SortedSet α} {member : α} : member ∈ set.toList ↔ member ∈ set :=
  Iff.rfl

variable [Std.LawfulEqOrd α] [Std.TransOrd α]

/-- The members after inserting several. -/
@[simp] theorem mem_insertAll {set : SortedSet α} {members : List α} {member : α} :
    member ∈ members.foldl insert set ↔ member ∈ members ∨ member ∈ set := by
  induction members generalizing set with
  | nil => simp
  | cons head tail tailIH =>
    rw [List.foldl_cons, tailIH, mem_insert, List.mem_cons]
    tauto

/-- What is in one of several sets is in their union. -/
theorem mem_unionAll {sets : List (SortedSet α)} {set : SortedSet α} {member : α} :
    member ∈ sets.foldl union set ↔ member ∈ set ∨ ∃ other ∈ sets, member ∈ other := by
  induction sets generalizing set with
  | nil => simp
  | cons first rest restIH =>
    rw [List.foldl_cons, restIH, mem_union]
    simp only [List.mem_cons, exists_eq_or_imp]
    tauto

/-- The members of the set of a list. -/
@[simp] theorem mem_ofList {members : List α} {member : α} :
    member ∈ ofList members ↔ member ∈ members := by
  simp [ofList]

end SortedSet

namespace SortedMap

variable {κ ν μ : Type} [Ord κ] [Std.LawfulEqOrd κ]

/-- A map lists no key twice. -/
theorem nodup_keys (map : SortedMap κ ν) : map.keys.Nodup := map.ascending.nodup

/-- The value that a list of entries first gives to a key is listed with it. -/
theorem mem_of_lookupList {entries : List (κ × ν)} {key : κ} {value : ν}
    (found : lookupList key entries = some value) : (key, value) ∈ entries := by
  induction entries with
  | nil => simp [lookupList] at found
  | cons entry tail tailIH =>
    obtain ⟨head, current⟩ := entry
    rw [lookupList] at found
    split at found
    · rename_i same
      obtain rfl := Std.LawfulEqOrd.eq_of_compare same
      cases found
      exact List.mem_cons_self ..
    · exact List.mem_cons_of_mem _ (tailIH found)

/-- A key has the value that it is listed with. -/
theorem get?_eq_some_iff {map : SortedMap κ ν} {key : κ} {value : ν} :
    map.get? key = some value ↔ (key, value) ∈ map.toList := by
  refine ⟨mem_of_lookupList, fun listed => ?_⟩
  cases found : map.get? key with
  | none =>
    have absent := lookupList_eq_none_iff.1 found
    exact absurd (List.mem_map_of_mem listed) absent
  | some other =>
    have same := List.inj_on_of_nodup_map map.nodup_keys (mem_of_lookupList found) listed rfl
    rw [(Prod.mk.inj same).2]

/-- The keys of a map are those that have a value. -/
theorem mem_keys {map : SortedMap κ ν} {key : κ} :
    key ∈ map.keys ↔ ∃ value, map.get? key = some value := by
  simp only [keys, List.mem_map, Prod.exists, get?_eq_some_iff]
  simp

omit [Std.LawfulEqOrd κ] in
/-- A map has a value for a key exactly when looking it up finds one. -/
theorem contains_iff {map : SortedMap κ ν} {key : κ} :
    map.contains key = true ↔ ∃ value, map.get? key = some value := by
  rw [contains, Option.isSome_iff_exists]

variable [Std.TransOrd κ] [DecidableEq κ]

/-- Looking up after setting a value, by equality of keys. -/
@[simp] theorem get?_insert_eq (map : SortedMap κ ν) (key other : κ) (value : ν) :
    (map.insert key value).get? other = if other = key then some value else map.get? other := by
  rw [get?_insert]
  congr 1
  exact propext Std.LawfulEqOrd.compare_eq_iff_eq

omit [Std.TransOrd κ] in
/-- Looking up after removing a key. -/
@[simp] theorem get?_erase_eq (map : SortedMap κ ν) (key other : κ) :
    (map.erase key).get? other = if other = key then none else map.get? other :=
  get?_erase map key other

/-- Looking up after changing a value. -/
@[simp] theorem get?_alter (map : SortedMap κ ν) (key other : κ) (change : Option ν → ν) :
    (map.alter key change).get? other =
      if other = key then some (change (map.get? key)) else map.get? other :=
  get?_insert_eq map key other _

/-- Looking up after setting a value that was missing. -/
@[simp] theorem get?_insertIfNew (map : SortedMap κ ν) (key other : κ) (value : ν) :
    (map.insertIfNew key value).get? other =
      if other = key then some ((map.get? key).getD value) else map.get? other := by
  unfold insertIfNew
  cases present : map.get? key with
  | none => simp [contains, present]
  | some current =>
    by_cases same : other = key
    · subst same; simp [contains, present]
    · simp [contains, present, same]

omit [Std.TransOrd κ] [DecidableEq κ] in
/-- Looking up after changing all values. -/
@[simp] theorem get?_mapValues (map : SortedMap κ ν) (change : κ → ν → μ)
    (key : κ) : (map.mapValues change).get? key = (map.get? key).map (change key) := by
  obtain ⟨entries, ascending⟩ := map
  simp only [get?, mapValues]
  clear ascending
  induction entries with
  | nil => rfl
  | cons entry tail tailIH =>
    obtain ⟨head, value⟩ := entry
    simp only [List.map_cons, lookupList]
    split
    · rename_i same
      obtain rfl := Std.LawfulEqOrd.eq_of_compare same
      rfl
    · exact tailIH

omit [Std.LawfulEqOrd κ] [Std.TransOrd κ] [DecidableEq κ] in
/-- Changing values keeps the keys. -/
@[simp] theorem keys_mapValues (map : SortedMap κ ν) (change : κ → ν → μ) :
    (map.mapValues change).keys = map.keys := by
  rw [keys, keys, mapValues, List.map_map]
  rfl

/-- A value set before all are changed is changed too. -/
theorem mapValues_insert (map : SortedMap κ ν) (change : κ → ν → μ) (key : κ) (value : ν) :
    (map.insert key value).mapValues change =
      (map.mapValues change).insert key (change key value) := by
  ext other : 1
  rw [get?_mapValues, get?_insert_eq, get?_insert_eq, get?_mapValues]
  split
  · rename_i same
    rw [same, Option.map_some]
  · rfl

/-- A key may be removed before or after all values are changed. -/
theorem mapValues_erase (map : SortedMap κ ν) (change : κ → ν → μ) (key : κ) :
    (map.erase key).mapValues change = (map.mapValues change).erase key := by
  ext other : 1
  rw [get?_mapValues, get?_erase_eq, get?_erase_eq, get?_mapValues]
  split <;> rfl

/-- Looking up after setting several values: the last one set counts. -/
theorem get?_insertAll (map : SortedMap κ ν) (entries : List (κ × ν)) (key : κ) :
    (entries.foldl (fun map entry => map.insert entry.1 entry.2) map).get? key =
      ((entries.reverse.find? fun entry => entry.1 = key).map Prod.snd).or (map.get? key) := by
  induction entries generalizing map with
  | nil => simp
  | cons entry tail tailIH =>
    rw [List.foldl_cons, tailIH, get?_insert_eq, List.reverse_cons, List.find?_append]
    cases found : tail.reverse.find? fun entry => entry.1 = key with
    | some later => simp
    | none =>
      by_cases same : key = entry.1
      · simp [same]
      · have apart : ¬ entry.1 = key := fun eq => same eq.symm
        simp [same, apart]

/-- A key that a list of entries names once has the value it is listed with. -/
theorem get?_ofList_of_mem {entries : List (κ × ν)} (nodup : (entries.map Prod.fst).Nodup) {key : κ}
    {value : ν} (listed : (key, value) ∈ entries) : (ofList entries).get? key = some value := by
  rw [ofList, get?_insertAll]
  cases found : entries.reverse.find? fun entry => entry.1 = key with
  | none =>
    have absent := List.find?_eq_none.1 found (key, value) (List.mem_reverse.2 listed)
    simp at absent
  | some entry =>
    have member := List.mem_reverse.1 (List.mem_of_find?_eq_some found)
    have same : entry.1 = key := by simpa using List.find?_some found
    have entryEq := List.inj_on_of_nodup_map nodup member listed same
    simp [entryEq]

/-- The keys of the map of a list are those it names. -/
theorem mem_keys_ofList {entries : List (κ × ν)} {key : κ} :
    key ∈ (ofList entries).keys ↔ key ∈ entries.map Prod.fst := by
  rw [mem_keys, ofList]
  simp only [get?_insertAll, get?_empty, Option.or_none]
  constructor
  · rintro ⟨value, found⟩
    obtain ⟨entry, isEntry, rfl⟩ := Option.map_eq_some_iff.1 found
    have member := List.mem_reverse.1 (List.mem_of_find?_eq_some isEntry)
    have same : entry.1 = key := by simpa using List.find?_some isEntry
    exact List.mem_map.2 ⟨entry, member, same⟩
  · intro listed
    obtain ⟨entry, member, same⟩ := List.mem_map.1 listed
    cases found : entries.reverse.find? fun entry => entry.1 = key with
    | none =>
      have absent := List.find?_eq_none.1 found entry (List.mem_reverse.2 member)
      simp [same] at absent
    | some other => exact ⟨other.2, rfl⟩

/-- The map of a list with distinct keys has a value exactly where the list does. -/
theorem get?_ofList_eq_some_iff {entries : List (κ × ν)} (nodup : (entries.map Prod.fst).Nodup)
    {key : κ} {value : ν} : (ofList entries).get? key = some value ↔ (key, value) ∈ entries := by
  refine ⟨fun found => ?_, get?_ofList_of_mem nodup⟩
  obtain ⟨⟨other, current⟩, member, same⟩ :=
    List.mem_map.1 (mem_keys_ofList.1 (mem_keys.2 ⟨value, found⟩))
  change other = key at same
  subst same
  rw [get?_ofList_of_mem nodup member] at found
  cases found
  exact member

/-- Looking up after adding the elements of a list to the lists of their keys, in order. -/
theorem getD_group {ν : Type} (entries : List (κ × ν)) (map : SortedMap κ (List ν)) (key : κ) :
    (entries.foldl (fun map entry => map.alter entry.1 fun known => known.getD [] ++ [entry.2])
      map).getD key [] =
      map.getD key [] ++ (entries.filter fun entry => entry.1 = key).map Prod.snd := by
  induction entries generalizing map with
  | nil => simp
  | cons entry rest restIH =>
    rw [List.foldl_cons, restIH, List.filter_cons]
    by_cases same : entry.1 = key
    · subst same
      simp [getD]
    · have apart : key ≠ entry.1 := fun equal => same equal.symm
      simp [getD, same, apart]

/-- A key has a list when an element was added to it. -/
theorem mem_keys_group {ν : Type} (entries : List (κ × ν)) (map : SortedMap κ (List ν)) (key : κ) :
    key ∈ (entries.foldl (fun map entry => map.alter entry.1 fun known =>
      known.getD [] ++ [entry.2]) map).keys ↔ key ∈ map.keys ∨ key ∈ entries.map Prod.fst := by
  induction entries generalizing map with
  | nil => simp
  | cons entry rest restIH =>
    rw [List.foldl_cons, restIH, mem_keys, mem_keys, List.map_cons, List.mem_cons]
    simp only [get?_alter]
    by_cases same : key = entry.1
    · simp [same]
    · simp [same]

omit [Ord κ] [Std.LawfulEqOrd κ] [Std.TransOrd κ] in
/-- The elements of a list, sorted by different keys that are all there are. -/
theorem flatMap_filter_perm {ν : Type} {keys : List κ} (nodup : keys.Nodup)
    {entries : List (κ × ν)} (keyed : ∀ entry ∈ entries, entry.1 ∈ keys) :
    (keys.flatMap fun key => entries.filter fun entry => entry.1 = key).Perm entries := by
  induction keys generalizing entries with
  | nil =>
    rw [List.eq_nil_iff_forall_not_mem.2 fun entry member => List.not_mem_nil (keyed entry member)]
    exact .refl _
  | cons key rest restIH =>
    rw [List.nodup_cons] at nodup
    have others := @restIH nodup.2 (entries.filter fun entry => !decide (entry.1 = key))
      fun entry member => by
        obtain ⟨inside, apart⟩ := List.mem_filter.1 member
        exact (List.mem_cons.1 (keyed entry inside)).resolve_left (by simpa using apart)
    have same : (rest.flatMap fun other => (entries.filter fun entry =>
        !decide (entry.1 = key)).filter fun entry => entry.1 = other) =
        rest.flatMap fun other => entries.filter fun entry => entry.1 = other := by
      refine List.flatMap_congr fun other member => ?_
      rw [List.filter_filter]
      refine List.filter_congr fun entry _ => ?_
      by_cases isOther : entry.1 = other
      · have apart : other ≠ key := fun isKey => nodup.1 (isKey ▸ member)
        simp [isOther, apart]
      · simp [isOther]
    rw [same] at others
    rw [List.flatMap_cons]
    exact (others.append_left _).trans (List.filter_append_perm _ _)

/-- The lists by keys hold together what was grouped. -/
theorem group_perm {ν : Type} (entries : List (κ × ν)) :
    ((entries.foldl (fun map entry => map.alter entry.1 fun known => known.getD [] ++ [entry.2])
      (empty : SortedMap κ (List ν))).toList.flatMap Prod.snd).Perm (entries.map Prod.snd) := by
  have values := getD_group entries (empty : SortedMap κ (List ν))
  have isKey := mem_keys_group entries (empty : SortedMap κ (List ν))
  generalize entries.foldl (fun map entry => map.alter entry.1 fun known => known.getD [] ++
    [entry.2]) (empty : SortedMap κ (List ν)) = map at values isKey ⊢
  have lists : map.toList.flatMap Prod.snd =
      (map.keys.flatMap fun key => entries.filter fun entry => entry.1 = key).map Prod.snd := by
    rw [keys, List.flatMap_map, List.map_flatMap]
    refine List.flatMap_congr fun entry member => ?_
    have value := values entry.1
    rw [getD, get?_eq_some_iff.2 member] at value
    exact value
  rw [lists]
  exact (flatMap_filter_perm map.nodup_keys fun entry member =>
    (isKey entry.1).2 (.inr (List.mem_map_of_mem member))).map _

end SortedMap

end Midend
