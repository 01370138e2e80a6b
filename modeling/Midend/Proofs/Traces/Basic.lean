import Mathlib.Data.List.Perm.Subperm
import Midend.Proofs.FlowGraph.WellFormed
import Midend.Proofs.Ssa.Form

/-! # Where instructions come from

Every instruction has a key. One that a pass puts in the place of another one keeps its key
(`Instr.Traces`), and one that is added takes the next key of the flow graph (`FlowGraph.newKeys`). So
keys stay unique while a flow graph develops (`FlowGraph.KeysFrom.keyed`), and lead from each
instruction to that of the function that it comes from (`FlowGraph.Traced`). -/

namespace Midend

/-! ## Lists -/

/-- A list is within another one when its images are within those of the other one. -/
theorem subperm_map {α β : Type} (change : α → β) {left right : List α} (within : left.Subperm right) :
    (left.map change).Subperm (right.map change) := by
  obtain ⟨list, perm, sublist⟩ := within
  exact ⟨list.map change, perm.map change, sublist.map change⟩

/-- What is within a list without repetitions has none. -/
theorem nodup_of_subperm {α : Type} {left right : List α} (within : left.Subperm right)
    (nodup : right.Nodup) : left.Nodup := by
  obtain ⟨list, perm, sublist⟩ := within
  exact perm.nodup_iff.1 (nodup.sublist sublist)

/-! ## Instructions -/

namespace Instr

/-- An instruction that stands where another one stood: it has the key, the source position and the
declared type of that one, and does the same, unless it became a copy or a constant. -/
structure Traces (origin instr : Instr) : Prop where
  /-- The key stays. -/
  key_eq : instr.key = origin.key
  /-- The source position stays. -/
  pos_eq : instr.pos = origin.pos
  /-- The declared type stays. -/
  ty?_eq : instr.ty? = origin.ty?
  /-- Only a label stands for a label. -/
  isLabel_eq : instr.isLabel = origin.isLabel
  /-- The operation stays, or becomes a copy or a constant. -/
  op?_cases : instr.op? = origin.op? ∨ instr.op? = some .id ∨ instr.op? = some .const

/-- An instruction that stands where another one stood and writes the same variable. -/
structure Stays (origin instr : Instr) : Prop extends Traces origin instr where
  /-- The variable written stays. -/
  dest?_eq : instr.dest? = origin.dest?

/-- An instruction that stands where another one stood and writes the same variable, or one that is
named after it: its name is followed by a dot and a number. -/
structure StemsFrom (origin instr : Instr) : Prop extends Traces origin instr where
  /-- The variable written stays, or becomes a numbered one. -/
  dest?_cases : instr.dest? = origin.dest? ∨ ∃ dest number, origin.dest? = some dest ∧
    instr.dest? = some (numbered dest "." number)

variable {origin old instr : Instr}

/-- An instruction stands for itself. -/
theorem Traces.refl (instr : Instr) : instr.Traces instr := ⟨rfl, rfl, rfl, rfl, .inl rfl⟩

/-- Places are kept in turn. -/
theorem Traces.trans (first : origin.Traces old) (second : old.Traces instr) :
    origin.Traces instr := by
  refine ⟨second.key_eq.trans first.key_eq, second.pos_eq.trans first.pos_eq,
    second.ty?_eq.trans first.ty?_eq, second.isLabel_eq.trans first.isLabel_eq, ?_⟩
  rcases second.op?_cases with same | changed
  · rw [same]
    exact first.op?_cases
  · exact .inr changed

/-- An instruction stays in place of itself. -/
theorem Stays.refl (instr : Instr) : instr.Stays instr := ⟨.refl instr, rfl⟩

/-- Places and variables are kept in turn. -/
theorem Stays.trans (first : origin.Stays old) (second : old.Stays instr) : origin.Stays instr :=
  ⟨first.toTraces.trans second.toTraces, second.dest?_eq.trans first.dest?_eq⟩

/-- What stays writes the same variable. -/
theorem Stays.stemsFrom (stays : origin.Stays instr) : origin.StemsFrom instr :=
  ⟨stays.toTraces, .inl stays.dest?_eq⟩

/-- What stays before it gets another variable stems from the same instruction. -/
theorem StemsFrom.of_stays (stays : origin.Stays old) (stems : old.StemsFrom instr) :
    origin.StemsFrom instr := by
  refine ⟨stays.toTraces.trans stems.toTraces, ?_⟩
  rw [← stays.dest?_eq]
  exact stems.dest?_cases

/-- What stays after it got another variable stems from the same instruction. -/
theorem StemsFrom.stays (stems : origin.StemsFrom old) (stays : old.Stays instr) :
    origin.StemsFrom instr := by
  refine ⟨stems.toTraces.trans stays.toTraces, ?_⟩
  rw [stays.dest?_eq]
  exact stems.dest?_cases

/-- Other operands. -/
theorem stays_mapOperands (instr : Instr) (change : Operands → Operands) :
    instr.Stays { instr with action := instr.action.mapOperands change } := by
  obtain ⟨action, pos, key⟩ := instr
  cases action <;> exact ⟨⟨rfl, rfl, rfl, rfl, .inl rfl⟩, rfl⟩

/-- Another variable that is written. -/
theorem traces_mapDest (instr : Instr) (change : String → String) :
    instr.Traces (instr.mapDest change) := by
  obtain ⟨action, pos, key⟩ := instr
  cases action <;> exact ⟨rfl, rfl, rfl, rfl, .inl rfl⟩

/-- A variable that becomes a constant. -/
theorem stays_const {dest : String} {ty : Ty} (isDest : instr.dest? = some dest)
    (isTy : instr.ty? = some ty) (literal : Literal) :
    instr.Stays { instr with action := .const dest ty literal } := by
  refine ⟨⟨rfl, rfl, isTy.symm, ?_, .inr (.inr rfl)⟩, isDest.symm⟩
  obtain ⟨action, pos, key⟩ := instr
  cases action with
  | label name => cases isDest
  | const | compute | effect => rfl

/-- A variable that becomes a copy. -/
theorem stays_copy {dest : String} {ty : Ty} (isDest : instr.dest? = some dest)
    (isTy : instr.ty? = some ty) (source : String) :
    instr.Stays { instr with action := .compute .id dest ty { args := [source] } } := by
  obtain ⟨⟨_, _, _, isLabel_eq, _⟩, _⟩ := stays_const isDest isTy (.bool true)
  exact ⟨⟨rfl, rfl, isTy.symm, isLabel_eq, .inr (.inl rfl)⟩, isDest.symm⟩

/-- The key of an instruction, with the variable that it writes. -/
def tag (instr : Instr) : Nat × Option String := (instr.key, instr.dest?)

/-- What stays in place is known by the same key and variable. -/
theorem Stays.tag_eq (stays : origin.Stays instr) : instr.tag = origin.tag :=
  Prod.ext stays.key_eq stays.dest?_eq

end Instr

/-! ## Lists of instructions -/

/-- What became of instructions: none stands in two places, and each one there is stands where one of
them stood, or is one of those that were added. -/
structure Alters (before after : List Instr) (added : List (Nat × Option String)) : Prop where
  /-- No key and no variable is there more often than it was. -/
  tags : (after.map Instr.tag).Subperm (before.map Instr.tag ++ added)
  /-- Instructions stay in place. -/
  instrs : ∀ instr ∈ after, instr.tag ∈ added ∨ ∃ old ∈ before, old.Stays instr

namespace Alters

variable {before middle after : List Instr} {added more : List (Nat × Option String)}

/-- Some of the instructions are kept. -/
theorem of_subperm (within : after.Subperm before) : Alters before after [] := by
  refine ⟨?_, fun instr member => .inr ⟨instr, within.subset member, .refl instr⟩⟩
  rw [List.append_nil]
  exact subperm_map Instr.tag within

/-- The instructions are kept. -/
theorem refl (instrs : List Instr) : Alters instrs instrs [] := of_subperm (.refl instrs)

/-- Each instruction is replaced by one that stays in its place. -/
theorem of_forall₂ (stay : List.Forall₂ Instr.Stays before after) : Alters before after [] := by
  refine ⟨?_, fun instr member => .inr ?_⟩
  · rw [map_eq_of_forall₂ stay fun _ _ => Instr.Stays.tag_eq, List.append_nil]
  · obtain ⟨old, isOld, stays⟩ := exists_of_forall₂_right stay member
    exact ⟨old, isOld, stays⟩

/-- Instructions are altered twice. -/
theorem trans (first : Alters before middle added) (second : Alters middle after more) :
    Alters before after (added ++ more) := by
  constructor
  · have within := second.tags.trans ((List.subperm_append_right more).2 first.tags)
    rwa [List.append_assoc] at within
  · intro instr member
    rcases second.instrs instr member with isMore | ⟨old, isOld, stays⟩
    · exact .inl (List.mem_append_right _ isMore)
    · rcases first.instrs old isOld with isAdded | ⟨origin, isOrigin, stayed⟩
      · rw [stays.tag_eq]
        exact .inl (List.mem_append_left _ isAdded)
      · exact .inr ⟨origin, isOrigin, stayed.trans stays⟩

/-- Instructions are altered in two parts. -/
theorem append {left right : List Instr} (first : Alters before left added)
    (second : Alters middle right more) :
    Alters (before ++ middle) (left ++ right) (added ++ more) := by
  constructor
  · -- What is added to the first part goes behind the second one.
    rw [List.map_append, List.map_append]
    refine (first.tags.append second.tags).trans (List.Perm.subperm ?_)
    simp only [List.append_assoc]
    exact (List.perm_append_comm_assoc ..).append_left _
  · intro instr member
    rcases List.mem_append.1 member with inLeft | inRight
    · exact (first.instrs instr inLeft).imp (List.mem_append_left _)
        fun ⟨old, isOld, stays⟩ => ⟨old, List.mem_append_left _ isOld, stays⟩
    · exact (second.instrs instr inRight).imp (List.mem_append_right _)
        fun ⟨old, isOld, stays⟩ => ⟨old, List.mem_append_right _ isOld, stays⟩

/-- The order of the instructions does not matter. -/
theorem perm (alters : Alters before after added) {others results : List Instr}
    (left : before.Perm others) (right : results.Perm after) : Alters others results added := by
  constructor
  · exact ((right.map Instr.tag).subperm.trans alters.tags).trans
      ((left.map Instr.tag).append_right added).subperm
  · intro instr member
    exact (alters.instrs instr (right.mem_iff.1 member)).imp_right
      fun ⟨old, isOld, stays⟩ => ⟨old, left.mem_iff.1 isOld, stays⟩

/-- Instructions are added. -/
theorem add (instrs new : List Instr) : Alters instrs (instrs ++ new) (new.map Instr.tag) := by
  refine ⟨?_, fun instr member => ?_⟩
  · rw [List.map_append]
  · exact (List.mem_append.1 member).symm.imp List.mem_map_of_mem
      fun inside => ⟨instr, inside, .refl instr⟩

/-- No variable is written more often than before, if nothing is added. -/
theorem dests_subperm (alters : Alters before after []) :
    (after.filterMap Instr.dest?).Subperm (before.filterMap Instr.dest?) := by
  obtain ⟨list, perm, sublist⟩ := alters.tags
  have viaTags : ∀ instrs : List Instr, instrs.filterMap Instr.dest? =
      (instrs.map Instr.tag).filterMap Prod.snd := fun instrs => by
    rw [List.filterMap_map]
    rfl
  rw [viaTags, viaTags]
  rw [List.append_nil] at sublist
  exact ⟨list.filterMap Prod.snd, perm.filterMap _, sublist.filterMap _⟩

end Alters

/-! ## Flow graphs -/

namespace FlowGraph

variable {graph middle after : FlowGraph}

/-- The keys that were given out from one flow graph to another one. -/
def newKeys (graph after : FlowGraph) : List Nat :=
  List.range' graph.nextKey (after.nextKey - graph.nextKey)

/-- New keys come after old ones. -/
theorem mem_newKeys {key : Nat} :
    key ∈ graph.newKeys after ↔ graph.nextKey ≤ key ∧ key < after.nextKey := by
  rw [newKeys, List.mem_range'_1]
  omega

/-- New keys are given out in order. -/
theorem newKeys_eq {count : Nat} (nextKey_eq : after.nextKey = graph.nextKey + count) :
    graph.newKeys after = List.range' graph.nextKey count := by
  rw [newKeys, nextKey_eq, Nat.add_sub_cancel_left]

/-- Keys are given out in two parts. -/
theorem newKeys_append (first : graph.nextKey ≤ middle.nextKey)
    (second : middle.nextKey ≤ after.nextKey) :
    graph.newKeys middle ++ middle.newKeys after = graph.newKeys after := by
  have between : middle.nextKey = graph.nextKey + (middle.nextKey - graph.nextKey) := by omega
  have total : after.nextKey - graph.nextKey =
      (middle.nextKey - graph.nextKey) + (after.nextKey - middle.nextKey) := by omega
  rw [newKeys, newKeys, newKeys, total, ← List.range'_append_1, ← between]

/-- A flow graph in which no two instructions have the same key, and the next key is greater than all
of them. -/
structure Keyed (graph : FlowGraph) : Prop where
  /-- Keys are unique. -/
  nodup : (graph.instrs.map Instr.key).Nodup
  /-- The next key is greater. -/
  lt_nextKey : ∀ instr ∈ graph.instrs, instr.key < graph.nextKey

/-- No key is used twice that was not, and new ones are used once at most. -/
structure KeysFrom (graph after : FlowGraph) : Prop where
  /-- Keys are given out in order. -/
  nextKey_le : graph.nextKey ≤ after.nextKey
  /-- Keys are old ones or new ones. -/
  keys : (after.instrs.map Instr.key).Subperm (graph.instrs.map Instr.key ++ graph.newKeys after)

namespace KeysFrom

/-- Nothing changes. -/
theorem refl (graph : FlowGraph) : graph.KeysFrom graph :=
  ⟨Nat.le_refl _, (List.sublist_append_left ..).subperm⟩

/-- Keys are used in turn. -/
theorem trans (first : graph.KeysFrom middle) (second : middle.KeysFrom after) :
    graph.KeysFrom after := by
  refine ⟨first.nextKey_le.trans second.nextKey_le, second.keys.trans ?_⟩
  have within := (List.subperm_append_right (middle.newKeys after)).2 first.keys
  rwa [List.append_assoc, newKeys_append first.nextKey_le second.nextKey_le] at within

/-- Keys stay unique. -/
theorem keyed (keysFrom : graph.KeysFrom after) (keyed : graph.Keyed) : after.Keyed := by
  constructor
  · -- Old keys are below the next key, and new ones are not.
    refine nodup_of_subperm keysFrom.keys (List.nodup_append.2 ⟨keyed.nodup, List.nodup_range', ?_⟩)
    rintro key isOld _ isNew rfl
    obtain ⟨instr, inside, rfl⟩ := List.mem_map.1 isOld
    have low := keyed.lt_nextKey instr inside
    have high := (mem_newKeys.1 isNew).1
    omega
  · intro instr member
    rcases List.mem_append.1 (keysFrom.keys.subset (List.mem_map_of_mem member)) with isOld | isNew
    · obtain ⟨old, inside, same⟩ := List.mem_map.1 isOld
      rw [← same]
      exact (keyed.lt_nextKey old inside).trans_le keysFrom.nextKey_le
    · exact (mem_newKeys.1 isNew).2

end KeysFrom

/-- A flow graph that another one develops to: instructions are removed, stay in place, or are added
with new keys. -/
structure Develops (graph after : FlowGraph) : Prop where
  /-- Keys are given out in order. -/
  nextKey_le : graph.nextKey ≤ after.nextKey
  /-- Instructions are altered, and new ones have new keys. -/
  exists_alters : ∃ added, Alters graph.instrs after.instrs added ∧
    (added.map Prod.fst).Subperm (graph.newKeys after)

namespace Develops

/-- Nothing is added. -/
theorem of_alters (alters : Alters graph.instrs after.instrs [])
    (nextKey_le : graph.nextKey ≤ after.nextKey) : graph.Develops after :=
  ⟨nextKey_le, [], alters, List.nil_subperm⟩

/-- Nothing changes. -/
theorem refl (graph : FlowGraph) : graph.Develops graph := of_alters (.refl _) (Nat.le_refl _)

/-- A flow graph develops in turn. -/
theorem trans (first : graph.Develops middle) (second : middle.Develops after) :
    graph.Develops after := by
  obtain ⟨added, alters, areNew⟩ := first.exists_alters
  obtain ⟨more, altersMore, areMore⟩ := second.exists_alters
  refine ⟨first.nextKey_le.trans second.nextKey_le, added ++ more, alters.trans altersMore, ?_⟩
  rw [List.map_append, ← newKeys_append first.nextKey_le second.nextKey_le]
  exact areNew.append areMore

/-- Keys are used accordingly. -/
theorem keysFrom (develops : graph.Develops after) : graph.KeysFrom after := by
  obtain ⟨added, alters, areNew⟩ := develops.exists_alters
  have keys := subperm_map Prod.fst alters.tags
  rw [List.map_append, List.map_map, List.map_map] at keys
  exact ⟨develops.nextKey_le, keys.trans ((List.subperm_append_left _).2 areNew)⟩

/-- Every instruction has a new key, or stays in place. -/
theorem instrs (develops : graph.Develops after) : ∀ instr ∈ after.instrs,
    graph.nextKey ≤ instr.key ∨ ∃ old ∈ graph.instrs, old.Stays instr := by
  obtain ⟨added, alters, areNew⟩ := develops.exists_alters
  intro instr member
  refine (alters.instrs instr member).imp_left fun isAdded => ?_
  exact (mem_newKeys.1 (areNew.subset (List.mem_map_of_mem isAdded))).1

end Develops

/-! ## One block -/

/-- Changing the block of a name changes its instructions and no others. -/
theorem exists_others (nodup : graph.names.Nodup) {name : String} {block : Block}
    (found : graph.find? name = some block) :
    ∃ others, graph.instrs.Perm (block.instrs ++ others) ∧ ∀ change : Block → Block,
      (graph.modifyBlock name change).instrs.Perm ((change block).instrs ++ others) := by
  obtain ⟨member, rfl⟩ := (find?_eq_some_iff nodup).1 found
  obtain ⟨before, rest, split⟩ := List.append_of_mem member
  rw [names, split, List.map_append, List.map_cons, List.nodup_append, List.nodup_cons] at nodup
  obtain ⟨_, ⟨notLater, _⟩, apart⟩ := nodup
  have same : ∀ change : Block → Block, (graph.modifyBlock block.name change).blocks =
      before ++ change block :: rest := by
    intro change
    have kept : ∀ others : List Block, (∀ other ∈ others, other.name ≠ block.name) →
        (others.map fun other => if other.name = block.name then change other else other) = others :=
      fun others away => (List.map_congr_left fun other inside => if_neg (away other inside)).trans
        (List.map_id _)
    rw [modifyBlock, split, List.map_append, List.map_cons, if_pos rfl, kept before, kept rest]
    · exact fun other inside isName => notLater (isName ▸ List.mem_map_of_mem inside)
    · exact fun other inside => apart _ (List.mem_map_of_mem inside) _ (List.mem_cons_self ..)
  have perm : ∀ middle : Block, ((before ++ middle :: rest).flatMap Block.instrs).Perm
      (middle.instrs ++ (before.flatMap Block.instrs ++ rest.flatMap Block.instrs)) := by
    intro middle
    rw [List.flatMap_append, List.flatMap_cons]
    exact List.perm_append_comm_assoc ..
  refine ⟨before.flatMap Block.instrs ++ rest.flatMap Block.instrs, ?_, fun change => ?_⟩
  · rw [instrs, split]
    exact perm block
  · rw [instrs, same]
    exact perm (change block)

/-- Changing a block that is not there changes nothing. -/
theorem modifyBlock_of_find?_eq_none {name : String} (unfound : graph.find? name = none)
    (change : Block → Block) : graph.modifyBlock name change = graph := by
  refine congrArg (fun blocks => { graph with blocks }) ?_
  refine (List.map_congr_left fun block member => if_neg ?_).trans (List.map_id _)
  simpa using List.find?_eq_none.1 unfound block member

/-- Altering the block of a name alters the flow graph. -/
theorem alters_modifyBlock (nodup : graph.names.Nodup) {name : String} {block : Block}
    (found : graph.find? name = some block) {change : Block → Block}
    {added : List (Nat × Option String)}
    (alters : Alters block.instrs (change block).instrs added) :
    Alters graph.instrs (graph.modifyBlock name change).instrs added := by
  obtain ⟨others, same, changed⟩ := exists_others nodup found
  have altered := alters.append (.refl others)
  rw [List.append_nil] at altered
  exact altered.perm same.symm (changed change)

/-! ## Origins -/

/-- A flow graph whose instructions have unique keys, which lead to the instructions of a function
that they come from. -/
structure Traced (stems : Instr → Instr → Prop) (function : Func) (graph : FlowGraph) : Prop where
  /-- Blocks have names of their own. -/
  nodup_names : graph.names.Nodup
  /-- Keys are unique. -/
  keyed : graph.Keyed
  /-- New keys come after those of the function. -/
  maxKey_lt : function.maxKey < graph.nextKey
  /-- What has no new key comes from an instruction of the function. -/
  exists_origin : ∀ instr ∈ graph.instrs, instr.key ≤ function.maxKey →
    ∃ origin ∈ function.instrs, stems origin instr

namespace Traced

variable {stems others : Instr → Instr → Prop} {function : Func}

/-- A flow graph stays traced when keys are used in order, and what has no new key leads to what it
stands for. -/
theorem of_keysFrom (traced : graph.Traced stems function) (nodup : after.names.Nodup)
    (keysFrom : graph.KeysFrom after)
    (instrs : ∀ instr ∈ after.instrs, graph.nextKey ≤ instr.key ∨ ∃ old ∈ graph.instrs,
      instr.key = old.key ∧ ∀ origin, stems origin old → others origin instr) :
    after.Traced others function := by
  refine ⟨nodup, keysFrom.keyed traced.keyed, traced.maxKey_lt.trans_le keysFrom.nextKey_le,
    fun instr member isOld => ?_⟩
  -- A new key is greater than those of the function.
  rcases instrs instr member with isNew | ⟨old, inside, key_eq, leads⟩
  · exact absurd (traced.maxKey_lt.trans_le isNew) (Nat.not_lt.2 isOld)
  · obtain ⟨origin, isOrigin, stemsFrom⟩ := traced.exists_origin old inside (key_eq ▸ isOld)
    exact ⟨origin, isOrigin, leads origin stemsFrom⟩

/-- A flow graph stays traced when it develops. -/
theorem develops (traced : graph.Traced stems function) (nodup : after.names.Nodup)
    (develops : graph.Develops after)
    (carries : ∀ origin old instr, stems origin old → old.Stays instr → stems origin instr) :
    after.Traced stems function :=
  traced.of_keysFrom nodup develops.keysFrom fun instr member =>
    (develops.instrs instr member).imp_right fun ⟨old, inside, stays⟩ =>
      ⟨old, inside, stays.key_eq, fun origin stemsFrom => carries origin old instr stemsFrom stays⟩

/-- Less may be said about the origins. -/
theorem mono (traced : graph.Traced stems function)
    (implies : ∀ origin instr, stems origin instr → others origin instr) :
    graph.Traced others function :=
  ⟨traced.nodup_names, traced.keyed, traced.maxKey_lt, fun instr member isOld =>
    (traced.exists_origin instr member isOld).imp fun origin ⟨inside, stemsFrom⟩ =>
      ⟨inside, implies origin instr stemsFrom⟩⟩

end Traced

end FlowGraph

end Midend
