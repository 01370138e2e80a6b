import Midend.Proofs.Values.Numbering
import Midend.Values.Global

/-! # Numbering of merges

Merges of a block are numbered in order. Some are kept; the others become constants or copies, which
read what is known before the block or what kept merges write
(`GlobalNumbering.Merged`). They have the values that the merges would select
(`GlobalNumbering.sound_numberPhis`). -/

namespace Midend

namespace GlobalNumbering

open ValueTable (SameBelow sameBelow_update Extends Bound)

/-! ## One merge -/

/-- The numbers of a merge's values all are one number, or the merge repeats another one. -/
def Repeats (block : String) (table : ValueTable) (phi : Instr) (numbers : List Nat)
    (number : Nat) : Prop :=
  (numbers ≠ [] ∧ ∀ other ∈ numbers, other = number) ∨
    table.exprs.get? (Expr.ofPhi block (phi.labels.zip numbers)) = some number

/-- What stands in the place of a merge whose value has a number. -/
def Replaces (table : ValueTable) (phi image : Instr) (dest : String) (number : Nat) : Prop :=
  ∃ ty, (∃ literal, table.constant? number = some literal ∧
      image = { phi with action := .const dest ty literal }) ∨
    ∃ source, table.canonical? number = some source ∧
      image = { phi with action := .compute .id dest ty { args := [source] } }

/-- A merge that becomes something else has values of one number, or repeats another one with that
number; it becomes a constant or a copy of the variable that stands for the number. -/
theorem simplify?_cases {table : ValueTable} {dest : String} {ty : Ty} {numbers : List Nat}
    {expr : Expr} {simplified : Simplified}
    (becomes : simplify? table dest ty numbers expr = some simplified) :
    ((numbers ≠ [] ∧ ∀ other ∈ numbers, other = simplified.number) ∨
      table.lookup? expr = some simplified.number) ∧
    ((∃ literal, table.constant? simplified.number = some literal ∧
        simplified.action = .const dest ty literal) ∨
      ∃ source, table.canonical? simplified.number = some source ∧
        simplified.action = .compute .id dest ty { args := [source] }) := by
  unfold simplify? at becomes
  split at becomes
  · rename_i uniform isUniform
    obtain rfl := Option.some.inj becomes
    unfold uniform? at isUniform
    split at isUniform
    · cases isUniform
    · rename_i first rest
      split at isUniform
      · rename_i areSame
        have uniformly : ∀ other ∈ first :: rest, other = first := by
          rintro other (_ | ⟨_, inRest⟩)
          · rfl
          · simpa using List.all_eq_true.1 areSame other inRest
        split at isUniform
        · rename_i literal isConstant
          obtain rfl := Option.some.inj isUniform
          exact ⟨.inl ⟨by simp, uniformly⟩, .inl ⟨literal, isConstant, rfl⟩⟩
        · obtain ⟨source, isSource, rfl⟩ := Option.map_eq_some_iff.1 isUniform
          exact ⟨.inl ⟨by simp, uniformly⟩, .inr ⟨source, isSource, rfl⟩⟩
      · cases isUniform
  · -- An equal merge is copied even if its value is a constant.
    obtain ⟨number, isFound, isCopy⟩ := Option.bind_eq_some_iff.1 becomes
    obtain ⟨source, isSource, rfl⟩ := Option.map_eq_some_iff.1 isCopy
    exact ⟨.inr isFound, .inr ⟨source, isSource, rfl⟩⟩

/-- The three ways in which a merge is numbered: one with an unknown value, a new one, and one that
becomes something else. -/
theorem numberPhi_cases (place : Place) (table : ValueTable) {phi : Instr} {dest : String} {ty : Ty}
    {operands : Operands} (isAction : phi.action = .compute .phi dest ty operands) :
    ((numberPhi place table phi).1 = phi ∧ (numberPhi place table phi).2.1 = table.define dest) ∨
    (∃ numbers, phi.args.mapM table.numberOf? = some numbers ∧
      (numberPhi place table phi).1 = phi ∧ (numberPhi place table phi).2.1 =
        (table.push (Expr.ofPhi place.block (phi.labels.zip numbers)) dest none).2.bind dest
          table.size) ∨
    (∃ numbers number, phi.args.mapM table.numberOf? = some numbers ∧
      Repeats place.block table phi numbers number ∧
      Replaces table phi (numberPhi place table phi).1 dest number ∧
      (numberPhi place table phi).2.1 = table.bind dest number) := by
  have args_eq : phi.args = operands.args := by rw [Instr.args, isAction]; rfl
  have labels_eq : phi.labels = operands.labels := by rw [Instr.labels, isAction]; rfl
  rw [args_eq, labels_eq]
  unfold numberPhi
  rw [isAction]
  dsimp only
  cases found : operands.args.mapM table.numberOf? with
  | none => exact .inl ⟨rfl, rfl⟩
  | some numbers =>
    dsimp only
    split
    · rename_i simplified isSimplified
      obtain ⟨isNumber, becomes⟩ := simplify?_cases isSimplified
      refine .inr (.inr ⟨numbers, simplified.number, rfl, ?_, ⟨ty, ?_⟩, rfl⟩)
      · rw [Repeats, labels_eq]
        exact isNumber.imp_right fun isFound => (ValueTable.get?_of_lookup? isFound).1
      · rcases becomes with ⟨literal, isConstant, isConst⟩ | ⟨source, isSource, isCopy⟩
        · exact .inl ⟨literal, isConstant, by rw [isConst]⟩
        · exact .inr ⟨source, isSource, by rw [isCopy]⟩
    · refine .inr (.inl ⟨numbers, rfl, rfl, ?_⟩)
      dsimp only
      rw [ValueTable.fst_push]

/-- A merge gives a number to the variable that it writes. -/
theorem extends_numberPhi (place : Place) {table : ValueTable} {phi : Instr} {dest : String}
    {ty : Ty} {operands : Operands} (isAction : phi.action = .compute .phi dest ty operands)
    (fresh : ¬table.Bound dest) : Extends table (numberPhi place table phi).2.1 [dest] := by
  rcases numberPhi_cases place table isAction with ⟨_, isTable⟩ | ⟨numbers, _, _, isTable⟩ |
    ⟨numbers, number, _, _, _, isTable⟩
  · rw [isTable]
    exact .of_bind _ (fun _ => rfl) ⟨[⟨none, dest, none⟩], rfl, by simp⟩ fresh
  · rw [isTable]
    refine .of_bind _ (fun _ => ValueTable.numberOf?_push ..) ⟨_, ValueTable.rows_push .., ?_⟩ fresh
    simp
  · rw [isTable]
    exact .of_bind _ (fun _ => rfl) ⟨[], (List.append_nil _).symm, by simp⟩ fresh

/-! ## All merges of a block -/

/-- The variables that merges among instructions write. -/
def keptDests (images : List Instr) : List String :=
  (images.filter Instr.isPhi).filterMap Instr.dest?

/-- An instruction that stands in the place of a merge: a constant, or a copy of what some row or
some kept merge holds. -/
def Lowered (rows : List Row) (kept : List String) (phi image : Instr) : Prop :=
  ∃ dest ty, phi.dest? = some dest ∧
    ((∃ literal, image = { phi with action := .const dest ty literal }) ∨
      ∃ source, ((∃ row ∈ rows, row.var = source) ∨ source ∈ kept) ∧
        image = { phi with action := .compute .id dest ty { args := [source] } })

/-- What numbering the merges of a block comes to, whatever a run does. -/
structure Merged (block : String) (table : ValueTable) (phis images : List Instr)
    (after : ValueTable) : Prop where
  /-- The variables of the merges get numbers. -/
  extended : Extends table after (phis.filterMap Instr.dest?)
  /-- New values are held by kept merges. -/
  rows : ∀ row ∈ after.rows, row ∈ table.rows ∨ row.var ∈ keptDests images
  /-- The merges of other blocks keep their numbers. -/
  others : ∀ other incoming, other ≠ block →
    after.exprs.get? (.phi other incoming) = table.exprs.get? (.phi other incoming)
  /-- Merges are kept as they are, or lowered. -/
  images : List.Forall₂ (fun phi image => image = phi ∨
    Lowered table.rows (keptDests images) phi image) phis images

/-- A sort of two kinds of merges only compares what they are made of. -/
theorem get?_index_phi (table : ValueTable) (block other : String) (number : Nat)
    (incoming others : List (String × Nat)) (apart : other ≠ block) :
    (table.index (Expr.ofPhi block incoming) number).exprs.get? (.phi other others) =
      table.exprs.get? (.phi other others) := by
  simp only [ValueTable.index, ExprIndex.get?_insert]
  rw [if_neg]
  rintro ⟨⟩
  exact apart rfl

/-- What numbering one merge comes to: only a kept one adds a value, which its variable holds. -/
theorem numberPhi_spec (place : Place) (table : ValueTable) {phi : Instr} {dest : String} {ty : Ty}
    {operands : Operands} (isAction : phi.action = .compute .phi dest ty operands) :
    (∀ row ∈ (numberPhi place table phi).2.1.rows, row ∈ table.rows ∨
      ((numberPhi place table phi).1 = phi ∧ row.var = dest)) ∧
    (∀ other incoming, other ≠ place.block →
      (numberPhi place table phi).2.1.exprs.get? (.phi other incoming) =
        table.exprs.get? (.phi other incoming)) ∧
    ((numberPhi place table phi).1 = phi ∨
      Lowered table.rows [] phi (numberPhi place table phi).1) := by
  rcases numberPhi_cases place table isAction with ⟨isImage, isTable⟩ |
    ⟨numbers, _, isImage, isTable⟩ | ⟨numbers, number, _, _, replaces, isTable⟩
  · rw [isTable, isImage]
    refine ⟨fun row member => ?_, fun _ _ _ => rfl, .inl rfl⟩
    rcases List.mem_append.1 member with old | isNew
    · exact .inl old
    · exact .inr ⟨rfl, by rw [List.mem_singleton.1 isNew]⟩
  · rw [isTable, isImage]
    refine ⟨fun row member => ?_, fun other incoming apart => ?_, .inl rfl⟩
    · rw [ValueTable.rows_bind, ValueTable.rows_push] at member
      rcases List.mem_append.1 member with old | isNew
      · exact .inl old
      · exact .inr ⟨rfl, by rw [List.mem_singleton.1 isNew]⟩
    · exact get?_index_phi _ place.block other table.size _ incoming apart
  · rw [isTable]
    refine ⟨fun row => .inl, fun _ _ _ => rfl, .inr ?_⟩
    have isDest : phi.dest? = some dest := by rw [Instr.dest?, isAction]; rfl
    obtain ⟨ty, ⟨literal, _, isImage⟩ | ⟨source, isCanonical, isImage⟩⟩ := replaces
    · exact ⟨dest, ty, isDest, .inl ⟨literal, isImage⟩⟩
    · obtain ⟨_, row, isRow, isSource⟩ := ValueTable.numberOf?_of_canonical? isCanonical
      exact ⟨dest, ty, isDest, .inr ⟨source, .inl ⟨row, List.mem_of_getElem? isRow, isSource⟩,
        isImage⟩⟩

/-- More rows and more kept merges may be copied. -/
theorem Lowered.mono {rows others : List Row} {kept more : List String} {phi image : Instr}
    (lowered : Lowered rows kept phi image)
    (subset : ∀ row ∈ rows, row ∈ others ∨ row.var ∈ more) (still : ∀ dest ∈ kept, dest ∈ more) :
    Lowered others more phi image := by
  obtain ⟨dest, ty, isDest, isConst | ⟨source, held, isImage⟩⟩ := lowered
  · exact ⟨dest, ty, isDest, .inl isConst⟩
  · refine ⟨dest, ty, isDest, .inr ⟨source, ?_, isImage⟩⟩
    rcases held with ⟨row, member, rfl⟩ | isKept
    · rcases subset row member with inside | isMore
      · exact .inl ⟨row, inside, rfl⟩
      · exact .inr isMore
    · exact .inr (still source isKept)

/-- A lowered merge is no merge and writes its variable. -/
theorem Lowered.dest?_eq {rows : List Row} {kept : List String} {phi image : Instr}
    (lowered : Lowered rows kept phi image) : image.dest? = phi.dest? ∧ image.isPhi = false := by
  obtain ⟨dest, ty, isDest, ⟨literal, rfl⟩ | ⟨source, _, rfl⟩⟩ := lowered
  · exact ⟨isDest.symm, rfl⟩
  · exact ⟨isDest.symm, rfl⟩

/-- A lowered merge is a well-formed instruction that goes on with the next. -/
theorem Lowered.plain {rows : List Row} {kept : List String} {phi image : Instr}
    (lowered : Lowered rows kept phi image) : image.isPhi = false ∧ image.isTerminator = false ∧
      image.isLabel = false ∧ image.Checked := by
  obtain ⟨dest, ty, _, ⟨literal, rfl⟩ | ⟨source, _, rfl⟩⟩ := lowered
  · exact ⟨rfl, rfl, rfl, Instr.checked_const rfl⟩
  · exact ⟨rfl, rfl, rfl, (Instr.checked_compute_iff rfl).2
      ((Instr.checked_compute_iff rfl).1 (Instr.checked_copy dest ty source))⟩

/-- What stands in the places of merges writes what they wrote. -/
theorem Merged.dests_eq {block : String} {table after : ValueTable} {phis images : List Instr}
    (merged : Merged block table phis images after) :
    images.filterMap Instr.dest? = phis.filterMap Instr.dest? := by
  have related : List.Forall₂ (fun phi image : Instr => image.dest? = phi.dest?) phis images := by
    refine merged.images.imp fun phi image cases => ?_
    rcases cases with rfl | lowered
    · rfl
    · exact lowered.dest?_eq.1
  clear merged
  induction related with
  | nil => rfl
  | cons head _ tailIH => rw [List.filterMap_cons, List.filterMap_cons, head, tailIH]

/-- Merges are numbered one after another. -/
theorem merged_numberAll (place : Place) {phis : List Instr} (table : ValueTable)
    (merges : ∀ phi ∈ phis, phi.isPhi = true) (nodup : (phis.filterMap Instr.dest?).Nodup)
    (fresh : ∀ dest ∈ phis.filterMap Instr.dest?, ¬table.Bound dest) :
    Merged place.block table phis (numberAll (numberPhi place) phis table).1
      (numberAll (numberPhi place) phis table).2.1 := by
  induction phis generalizing table with
  | nil => exact ⟨.refl _, fun row => .inl, fun _ _ _ => rfl, .nil⟩
  | cons phi rest restIH =>
    have isPhi := merges phi (List.mem_cons_self ..)
    obtain ⟨dest, ty, operands, isAction⟩ := Instr.exists_of_isPhi isPhi
    have isDest : phi.dest? = some dest := by rw [Instr.dest?, isAction]; rfl
    rw [List.filterMap_cons_some isDest] at nodup fresh
    rw [List.nodup_cons] at nodup
    have extended := extends_numberPhi place isAction (fresh dest (List.mem_cons_self ..))
    obtain ⟨rows, others, image⟩ := numberPhi_spec place table isAction
    have tail := restIH (numberPhi place table phi).2.1
      (fun other member => merges other (List.mem_cons_of_mem _ member)) nodup.2 (by
        intro other member isBound
        rcases extended.origin other isBound with early | isNew
        · exact fresh other (List.mem_cons_of_mem _ member) early
        · exact nodup.1 (List.mem_singleton.1 isNew ▸ member))
    -- A kept merge is the first of the kept ones.
    have inKept : ∀ images, (numberPhi place table phi).1 = phi →
        dest ∈ keptDests ((numberPhi place table phi).1 :: images) := by
      intro images isKept
      rw [keptDests, isKept, List.filter_cons_of_pos isPhi, List.filterMap_cons_some isDest]
      exact List.mem_cons_self ..
    have stillKept : ∀ first images, ∀ other ∈ keptDests images,
        other ∈ keptDests (first :: images) := by
      intro first images other member
      unfold keptDests at member ⊢
      rw [List.filter_cons]
      split
      · rw [List.filterMap_cons]
        split
        · exact member
        · exact List.mem_cons_of_mem _ member
      · exact member
    have rowsBefore : ∀ images, ∀ row ∈ (numberPhi place table phi).2.1.rows, row ∈ table.rows ∨
        row.var ∈ keptDests ((numberPhi place table phi).1 :: images) := by
      intro images row member
      rcases rows row member with old | ⟨isKept, isVar⟩
      · exact .inl old
      · exact .inr (isVar ▸ inKept images isKept)
    refine ⟨?_, fun row member => ?_, fun other incoming apart => ?_, ?_⟩
    · rw [List.filterMap_cons_some isDest]
      exact extended.trans tail.extended
    · rcases tail.rows row member with old | isKept
      · exact rowsBefore _ row old
      · exact .inr (stillKept _ _ _ isKept)
    · exact (tail.others other incoming apart).trans (others other incoming apart)
    · refine .cons (image.imp id fun lowered => ?_) (tail.images.imp fun _ _ => Or.imp id ?_)
      · exact lowered.mono (fun row => .inl) (by simp)
      · exact fun lowered => lowered.mono (rowsBefore _) (stillKept _ _)

/-! ## Values -/

/-- An instruction in the place of a merge writes the value that its variable has after all merges. -/
def Right (entered : Env) (image : Instr) : Prop :=
  ∃ dest ty value, entered dest = some value ∧
    ((∃ literal, image.action = .const dest ty literal ∧ value = literal.toValue) ∨
      ∃ source, image.action = .compute .id dest ty { args := [source] } ∧
        entered source = some value)

/-- The values of numbered merges: each has the value that it takes from the block control comes
from. -/
def Takes (block source : String) (table : ValueTable) (val old : Nat → Option Value) : Prop :=
  ∀ incoming number, table.exprs.get? (.phi block incoming) = some number →
    ∀ taken, (source, taken) ∈ incoming → val number = old taken

/-- A pair of two lists in step has a partner in a list in step with the second. -/
theorem exists_mem_zip {α β γ : Type} {related : β → γ → Prop} {keys : List α} {left : List β}
    {right : List γ} (relate : List.Forall₂ related left right) {key : α} {first : β}
    (member : (key, first) ∈ keys.zip left) :
    ∃ second, (key, second) ∈ keys.zip right ∧ related first second := by
  induction relate generalizing keys with
  | nil => simp at member
  | cons head _ tailIH =>
    cases keys with
    | nil => cases member
    | cons other keys =>
      rw [List.zip_cons_cons] at member ⊢
      rcases List.mem_cons.1 member with same | inTail
      · obtain ⟨rfl, rfl⟩ := Prod.mk.inj same
        exact ⟨_, List.mem_cons_self .., head⟩
      · obtain ⟨second, inside, held⟩ := tailIH inTail
        exact ⟨second, List.mem_cons_of_mem _ inside, held⟩

/-- A key that is listed once has one partner. -/
theorem eq_of_mem_zip {α β : Type} {keys : List α} {values : List β} (nodup : keys.Nodup) {key : α}
    {left right : β} (inLeft : (key, left) ∈ keys.zip values)
    (inRight : (key, right) ∈ keys.zip values) : left = right := by
  induction keys generalizing values with
  | nil => cases inLeft
  | cons first keys keysIH =>
    cases values with
    | nil => cases inLeft
    | cons value values =>
      rw [List.nodup_cons] at nodup
      rw [List.zip_cons_cons] at inLeft inRight
      have absent : ∀ {other}, (first, other) ∉ keys.zip values := fun inside =>
        nodup.1 (List.of_mem_zip inside).1
      rcases List.mem_cons.1 inLeft with sameLeft | inLeft <;>
        rcases List.mem_cons.1 inRight with sameRight | inRight
      · exact (Prod.mk.inj sameLeft).2.trans (Prod.mk.inj sameRight).2.symm
      · exact absurd ((Prod.mk.inj sameLeft).1 ▸ inRight) absent
      · exact absurd ((Prod.mk.inj sameRight).1 ▸ inLeft) absent
      · exact keysIH nodup.2 inLeft inRight

/-- The values that a merge is made of are those of its labels. -/
theorem mem_ofPhi (block : String) {incoming : List (String × Nat)} {pair : String × Nat} :
    ∀ sorted, Expr.ofPhi block incoming = .phi block sorted → (pair ∈ sorted ↔ pair ∈ incoming) := by
  intro sorted isSorted
  unfold Expr.ofPhi at isSorted
  obtain rfl := (Expr.phi.inj isSorted).2
  exact (sortBy_perm _ _).mem_iff

section Sound

variable {machine : Machine} {source : String} {env entered : Env} {old : Nat → Option Value}

/-- What numbering the merges of a block relies on: what they select from the block control comes
from, that old values are known by number, and that some value of each merge is the same as before. -/
structure Selects (source : String) (env entered : Env) (old : Nat → Option Value)
    (table after : ValueTable) (val : Nat → Option Value) (phi : Instr) : Prop where
  /-- The merge has its value. -/
  selected : ∃ dest arg value, phi.dest? = some dest ∧ (source, arg) ∈ phi.incoming ∧
    env arg = some value ∧ entered dest = some value ∧
      ∀ number, after.numberOf? arg = some number → env arg = old number
  /-- Labels are listed once. -/
  labels : phi.labels.Nodup
  /-- One of its values was known before the block. -/
  steady : ∃ arg ∈ phi.args, ∀ number, after.numberOf? arg = some number →
    number < table.size ∧ val number = old number

/-- A merge is numbered such that its variable has the value of its number. -/
theorem numberPhi_sound (place : Place) {table after : ValueTable} {val : Nat → Option Value}
    {phi : Instr} (isPhi : phi.isPhi = true) (sound : table.Sound machine val entered)
    (takes : Takes place.block source table val old)
    (kept : ∀ var number, table.numberOf? var = some number → after.numberOf? var = some number)
    (selects : Selects source env entered old table after val phi) :
    ∃ other, SameBelow table.size val other ∧
      (numberPhi place table phi).2.1.Sound machine other entered ∧
      Takes place.block source (numberPhi place table phi).2.1 other old ∧
      ((numberPhi place table phi).1.isPhi = false → Right entered (numberPhi place table phi).1) := by
  obtain ⟨dest, ty, operands, isAction⟩ := Instr.exists_of_isPhi isPhi
  have isDest : phi.dest? = some dest := by rw [Instr.dest?, isAction]; rfl
  obtain ⟨written, arg, value, isWritten, isTaken, held, enters, recalled⟩ := selects.selected
  obtain rfl := Option.some.inj (isDest.symm.trans isWritten)
  -- The number of what is taken from the block control comes from.
  have exists_taken : ∀ {numbers}, phi.args.mapM table.numberOf? = some numbers →
      ∃ taken, (source, taken) ∈ phi.labels.zip numbers ∧ some value = old taken := by
    intro numbers found
    obtain ⟨taken, inside, isNumber⟩ := exists_mem_zip (mapM_eq_some_iff.1 found) isTaken
    exact ⟨taken, inside, held.symm.trans (recalled taken (kept arg taken isNumber))⟩
  rcases numberPhi_cases place table isAction with ⟨isImage, isTable⟩ |
    ⟨numbers, found, isImage, isTable⟩ | ⟨numbers, number, found, repeats, replaces, isTable⟩
  · rw [isTable, isImage]
    refine ⟨_, sameBelow_update table.size val (entered dest), sound.define dest, ?_, ?_⟩
    · intro incoming number isNumber taken inside
      rw [sameBelow_update table.size val _ number (sound.expr _ _ isNumber).1]
      exact takes incoming number isNumber taken inside
    · rw [isPhi]
      rintro ⟨⟩
  · rw [isTable, isImage]
    have same := sameBelow_update table.size val (entered dest)
    have pushed : (table.push (Expr.ofPhi place.block (phi.labels.zip numbers)) dest none).2.Sound
        machine (Function.update val table.size (entered dest)) entered :=
      sound.push dest (by simp) trivial
    refine ⟨_, same, pushed.bind ?_ ?_ fun _ _ => rfl, ?_, ?_⟩
    · simp [ValueTable.size]
    · rw [Function.update_self]
    · intro incoming number isNumber taken inside
      change (ExprIndex.insert table.exprs _ table.size).get? _ = some number at isNumber
      rw [ExprIndex.get?_insert] at isNumber
      split at isNumber
      · rename_i isExpr
        obtain rfl := Option.some.inj isNumber
        obtain ⟨other, inOther, isOther⟩ := exists_taken found
        rw [mem_ofPhi place.block incoming isExpr] at inside
        rw [Function.update_self, enters, isOther, eq_of_mem_zip selects.labels inside inOther]
      · rw [same number (sound.expr _ _ isNumber).1]
        exact takes incoming number isNumber taken inside
    · rw [isPhi]
      rintro ⟨⟩
  · -- The number that the merge gets stands for what the merge selects.
    obtain ⟨taken, inside, isOld⟩ := exists_taken found
    have atNumber : number < table.size ∧ val number = some value := by
      rcases repeats with ⟨nonempty, areSame⟩ | isFound
      · obtain ⟨arg', isArg, steady⟩ := selects.steady
        obtain ⟨other, isOther, isNumber⟩ := exists_of_forall₂_left (mapM_eq_some_iff.1 found) isArg
        obtain ⟨below, unchanged⟩ := steady other (kept _ _ isNumber)
        obtain rfl := areSame other isOther
        have isTaken : taken = other := areSame taken (List.of_mem_zip inside).2
        exact ⟨below, by rw [unchanged, isOld, isTaken]⟩
      · refine ⟨(sound.expr _ _ isFound).1, ?_⟩
        rw [isOld]
        exact takes _ number isFound taken ((mem_ofPhi place.block _ rfl).2 inside)
    rw [isTable]
    refine ⟨val, .refl _ _, sound.bind atNumber.1 (enters.trans atNumber.2.symm) fun _ _ => rfl,
      takes, fun _ => ?_⟩
    obtain ⟨ty, ⟨literal, isConstant, isImage⟩ | ⟨canonical, isCanonical, isImage⟩⟩ := replaces
    · refine ⟨dest, ty, value, enters, .inl ⟨literal, by rw [isImage], ?_⟩⟩
      exact Option.some.inj (atNumber.2.symm.trans (sound.constant number literal isConstant))
    · refine ⟨dest, ty, value, enters, .inr ⟨canonical, by rw [isImage], ?_⟩⟩
      rw [(sound.var canonical number (ValueTable.numberOf?_of_canonical? isCanonical).1).2]
      exact atNumber.2

/-- Merges are numbered such that their variables have the values of their numbers, and what stands
in the place of a merge writes its value. -/
theorem sound_numberPhis (place : Place) {phis : List Instr} {table : ValueTable}
    {val : Nat → Option Value} (merges : ∀ phi ∈ phis, phi.isPhi = true)
    (nodup : (phis.filterMap Instr.dest?).Nodup)
    (fresh : ∀ dest ∈ phis.filterMap Instr.dest?, ¬table.Bound dest)
    (sound : table.Sound machine val entered) (takes : Takes place.block source table val old)
    (selects : ∀ phi ∈ phis, Selects source env entered old table
      (numberAll (numberPhi place) phis table).2.1 val phi) :
    ∃ other, (numberAll (numberPhi place) phis table).2.1.Sound machine other entered ∧
      ∀ image ∈ (numberAll (numberPhi place) phis table).1, image.isPhi = false →
        Right entered image := by
  induction phis generalizing table val with
  | nil => exact ⟨val, sound, by simp [numberAll]⟩
  | cons phi rest restIH =>
    have isPhi := merges phi (List.mem_cons_self ..)
    obtain ⟨dest, ty, operands, isAction⟩ := Instr.exists_of_isPhi isPhi
    have isDest : phi.dest? = some dest := by rw [Instr.dest?, isAction]; rfl
    have inRest : ∀ other ∈ rest, other.isPhi = true := fun other member =>
      merges other (List.mem_cons_of_mem _ member)
    rw [List.filterMap_cons_some isDest] at nodup fresh
    rw [List.nodup_cons] at nodup
    have extended := extends_numberPhi place isAction (fresh dest (List.mem_cons_self ..))
    -- Only the variable of this merge got a number, and no later merge writes it.
    have freshRest : ∀ other ∈ rest.filterMap Instr.dest?,
        ¬(numberPhi place table phi).2.1.Bound other := by
      intro other member isBound
      rcases extended.origin other isBound with early | isNew
      · exact fresh other (List.mem_cons_of_mem _ member) early
      · exact nodup.1 (List.mem_singleton.1 isNew ▸ member)
    have tail := merged_numberAll place _ inRest nodup.2 freshRest
    obtain ⟨middle, same, soundMiddle, takesMiddle, right⟩ := numberPhi_sound place isPhi sound takes
      (fun var number found => tail.extended.kept _ _ (extended.kept _ _ found))
      (selects phi (List.mem_cons_self ..))
    obtain ⟨other, soundAfter, rights⟩ := restIH inRest nodup.2 freshRest soundMiddle takesMiddle
      fun phi member => by
        obtain ⟨selected, labels, arg, isArg, steady⟩ := selects phi (List.mem_cons_of_mem _ member)
        refine ⟨selected, labels, arg, isArg, fun number found => ?_⟩
        obtain ⟨below, unchanged⟩ := steady number found
        exact ⟨Nat.lt_of_lt_of_le below extended.size_le, (same number below).trans unchanged⟩
    refine ⟨other, soundAfter, fun image member => ?_⟩
    rcases List.mem_cons.1 member with rfl | inTail
    · exact right
    · exact rights image inTail

/-- Instructions in the place of merges complete the environment. -/
theorem execAll_of_right (calls : Calls) {replaced : List Instr}
    (right : ∀ image ∈ replaced, Right entered image)
    (apart : ∀ image ∈ replaced, ∀ arg ∈ image.args, arg ∉ replaced.filterMap Instr.dest?)
    {start : Env} (agree : ∀ var, var ∉ replaced.filterMap Instr.dest? → start var = entered var)
    (lines : List String) :
    Instr.execAll machine calls replaced ⟨start, lines⟩ = some (⟨entered, lines⟩, .next) := by
  induction replaced generalizing start with
  | nil =>
    have same : start = entered := funext fun var => agree var (by simp)
    rw [same]
    rfl
  | cons image rest restIH =>
    obtain ⟨dest, ty, value, enters, isImage⟩ := right image (List.mem_cons_self ..)
    have isDest : image.dest? = some dest := by
      rcases isImage with ⟨literal, isAction, _⟩ | ⟨source, isAction, _⟩ <;>
        rw [Instr.dest?, isAction] <;> rfl
    have ran : image.exec machine calls ⟨start, lines⟩ =
        some (⟨start.set dest value, lines⟩, .next) := by
      rw [Instr.exec_eq_some_iff]
      rcases isImage with ⟨literal, isAction, rfl⟩ | ⟨source, isAction, atSource⟩
      · refine ⟨[], { value := some literal.toValue }, ?_, ?_, ?_, rfl⟩
        · rw [Instr.reads, isAction]
          rfl
        · rw [isAction]
          rfl
        · simp [isDest, Midend.State.after]
      · have isArg : source ∈ image.args := by simp [Instr.args, isAction, Action.operands]
        -- No such instruction reads what another one writes, so the source is as it was on entry.
        have unchanged := agree source (apart image (List.mem_cons_self ..) source isArg)
        refine ⟨[value], { value := some value }, ?_, ?_, ?_, rfl⟩
        · rw [Instr.reads, isAction]
          simp [Action.reads, Env.read, unchanged, atSource]
        · rw [isAction]
          rfl
        · simp [isDest, Midend.State.after]
    rw [List.filterMap_cons_some isDest] at apart agree
    refine Instr.execAll_cons_next_iff.2 ⟨_, ran, ?_⟩
    refine restIH (fun other member => right other (List.mem_cons_of_mem _ member))
      (fun other member arg isArg inside => apart other (List.mem_cons_of_mem _ member) arg isArg
        (List.mem_cons_of_mem _ inside)) fun var notRest => ?_
    by_cases isVar : var = dest
    · rw [isVar, Env.set_self, enters]
    · rw [Env.set_of_ne _ _ isVar]
      exact agree var fun inside => (List.mem_cons.1 inside).elim isVar notRest

end Sound

end GlobalNumbering

end Midend
