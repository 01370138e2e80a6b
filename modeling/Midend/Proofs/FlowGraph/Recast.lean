import Midend.Proofs.FlowGraph.Recoded

/-! # Instructions in the place of others

A pass replaces instructions one by one. An instruction that ends a block as the old one does keeps
the block well-formed and its successors (`Block.WellFormed.of_sameShape`); one that also writes the
same variable and reads only allowed ones is a `Recast` of it. -/

namespace Midend

/-- What is related to two lists in a row is two lists in a row. -/
theorem exists_split_of_forall₂ {α β : Type} {related : α → β → Prop} {left right : List α}
    {list : List β} (relate : List.Forall₂ related (left ++ right) list) :
    ∃ first second, list = first ++ second ∧ List.Forall₂ related left first ∧
      List.Forall₂ related right second := by
  induction left generalizing list with
  | nil => exact ⟨[], list, rfl, .nil, relate⟩
  | cons head tail tailIH =>
    rcases relate with _ | ⟨headRelated, rest⟩
    obtain ⟨first, second, rfl, inFirst, inSecond⟩ := tailIH rest
    exact ⟨_ :: first, second, rfl, .cons headRelated inFirst, inSecond⟩

namespace Instr

/-- An instruction of the kind of another one: a merge, a label or an end of a block if the other is
one. -/
structure SameShape (instr image : Instr) : Prop where
  /-- It is a merge if the other one is. -/
  isPhi_eq : image.isPhi = instr.isPhi
  /-- It is a label if the other one is. -/
  isLabel_eq : image.isLabel = instr.isLabel
  /-- It ends a block if the other one does. -/
  isTerminator_eq : image.isTerminator = instr.isTerminator
  /-- It leads to where the other one leads. -/
  labels_eq : instr.isTerminator = true → image.labels = instr.labels
  /-- It is as well-formed. -/
  checked : instr.Checked → image.Checked

namespace SameShape

variable {instr middle image : Instr}

/-- An instruction is like itself. -/
theorem refl (instr : Instr) : SameShape instr instr := ⟨rfl, rfl, rfl, fun _ => rfl, id⟩

/-- Two replacements in a row. -/
theorem trans (first : SameShape instr middle) (second : SameShape middle image) :
    SameShape instr image := by
  refine ⟨second.isPhi_eq.trans first.isPhi_eq, second.isLabel_eq.trans first.isLabel_eq,
    second.isTerminator_eq.trans first.isTerminator_eq, fun ends => ?_,
    fun checked => second.checked (first.checked checked)⟩
  have endsMiddle : middle.isTerminator = true := first.isTerminator_eq.trans ends
  rw [second.labels_eq endsMiddle, first.labels_eq ends]

/-- Other names for the arguments. -/
theorem mapArgs (instr : Instr) (change : String → String) :
    SameShape instr (instr.mapArgs change) :=
  ⟨by simp, by simp, by simp, by simp, fun checked => checked.mapArgs change⟩

/-- Another name for the variable written. -/
theorem mapDest (instr : Instr) (change : String → String) :
    SameShape instr (instr.mapDest change) :=
  ⟨by simp, by simp, by simp, by simp, fun checked => checked.mapDest change⟩

end SameShape

/-- An instruction that stands in the place of another one: it writes the same variable and reads
only variables of some kind. -/
structure Recast (allowed : String → Prop) (instr image : Instr) : Prop
    extends SameShape instr image where
  /-- The same variable is written. -/
  dest?_eq : image.dest? = instr.dest?
  /-- It reads only allowed variables. -/
  args : ∀ arg ∈ image.args, allowed arg

/-- An instruction that writes a variable does not end a block, and is no label. -/
theorem notTerminator_of_dest {instr : Instr} (checked : instr.Checked) {dest : String}
    (isDest : instr.dest? = some dest) : instr.isTerminator = false ∧ instr.isLabel = false := by
  unfold dest? at isDest
  cases isAction : instr.action with
  | const _ _ literal =>
    simp [isTerminator, isLabel, op?, isAction, Action.op?, Opcode.isTerminator, Opcode.traits]
  | compute op _ _ operands =>
    obtain ⟨isValue, _, _⟩ := (checked_compute_iff isAction).1 checked
    rw [isTerminator, isLabel, op?, isAction]
    cases op <;> simp [Action.op?, Opcode.isTerminator, Opcode.isValue, Opcode.traits] at *
  | effect op operands =>
    rw [isAction] at isDest
    cases isDest
  | label name =>
    rw [isAction] at isDest
    cases isDest

namespace Recast

variable {allowed : String → Prop} {instr image : Instr}

/-- More variables are allowed. -/
theorem mono {other : String → Prop} (recast : Recast allowed instr image)
    (implies : ∀ arg, allowed arg → other arg) : Recast other instr image :=
  ⟨recast.toSameShape, recast.dest?_eq, fun arg member => implies arg (recast.args arg member)⟩

/-- The instruction reads other variables. -/
theorem ofArgs {args : List String}
    (isImage : image.action = instr.action.mapOperands fun operands => { operands with args })
    (length : args.length = instr.args.length) (areAllowed : ∀ arg ∈ args, allowed arg) :
    Recast allowed instr image := by
  have checkedImage : instr.Checked → image.Checked := fun checked =>
    checked_of_args checked args length isImage
  obtain ⟨action, pos, key⟩ := instr
  obtain ⟨action', pos', key'⟩ := image
  obtain rfl := isImage
  cases action with
  | const dest ty literal =>
    refine ⟨⟨rfl, rfl, rfl, fun _ => rfl, checkedImage⟩, rfl, ?_⟩
    simp [Instr.args, Action.mapOperands, Action.operands]
  | compute op dest ty operands =>
    refine ⟨⟨?_, rfl, rfl, fun _ => rfl, checkedImage⟩, rfl, areAllowed⟩
    cases op <;> rfl
  | effect op operands =>
    exact ⟨⟨rfl, rfl, rfl, fun _ => rfl, checkedImage⟩, rfl, areAllowed⟩
  | label name =>
    refine ⟨⟨rfl, rfl, rfl, fun _ => rfl, checkedImage⟩, rfl, ?_⟩
    simp [Instr.args, Action.mapOperands, Action.operands]

/-- The instruction becomes another one that writes the same variable and is no merge. -/
theorem ofDest (checked : instr.Checked) (checkedImage : image.Checked) (notPhi : instr.isPhi = false)
    (notPhiImage : image.isPhi = false) {dest : String} (isDest : instr.dest? = some dest)
    (isDestImage : image.dest? = some dest) (areAllowed : ∀ arg ∈ image.args, allowed arg) :
    Recast allowed instr image := by
  -- What writes a variable is no label and ends no block, so it leads nowhere.
  obtain ⟨notTerminator, notLabel⟩ := notTerminator_of_dest checked isDest
  obtain ⟨notTerminatorImage, notLabelImage⟩ := notTerminator_of_dest checkedImage isDestImage
  refine ⟨⟨?_, ?_, ?_, ?_, fun _ => checkedImage⟩, ?_, areAllowed⟩
  · rw [notPhiImage, notPhi]
  · rw [notLabelImage, notLabel]
  · rw [notTerminatorImage, notTerminator]
  · rw [notTerminator]
    rintro ⟨⟩
  · rw [isDestImage, isDest]

/-- The instruction becomes a constant. -/
theorem const (checked : instr.Checked) (notPhi : instr.isPhi = false) {dest : String} {ty : Ty}
    {literal : Literal} (isDest : instr.dest? = some dest)
    (isImage : image.action = .const dest ty literal) : Recast allowed instr image := by
  refine .ofDest checked (checked_const isImage) notPhi ?_ isDest ?_ ?_
  · rw [isPhi, isImage]
  · rw [dest?, isImage]
    rfl
  · rw [Instr.args, isImage]
    simp [Action.operands]

/-- The instruction becomes a copy. -/
theorem copy (checked : instr.Checked) (notPhi : instr.isPhi = false) {dest source : String}
    {ty : Ty} (isDest : instr.dest? = some dest)
    (isImage : image.action = .compute .id dest ty { args := [source] })
    (isAllowed : allowed source) : Recast allowed instr image := by
  have checkedImage : image.Checked :=
    (checked_compute_iff isImage).2 ((checked_compute_iff rfl).1 (checked_copy dest ty source))
  refine .ofDest checked checkedImage notPhi ?_ isDest ?_ ?_
  · rw [isPhi, isImage]
  · rw [dest?, isImage]
    rfl
  · rw [Instr.args, isImage]
    simpa [Action.operands] using isAllowed

end Recast

end Instr

namespace Block

/-- A block whose body is replaced instruction by instruction, behind merges and other instructions
that do not end a block, leads to where it led and stays well-formed. -/
theorem WellFormed.of_sameShape {block image : Block} (wellFormed : block.WellFormed)
    (merges others : List Instr) {body : List Instr} (split : image.instrs = merges ++ (others ++ body))
    (areMerges : ∀ phi ∈ merges, phi.isPhi = true ∧ phi.Checked)
    (arePlain : ∀ instr ∈ others, instr.isPhi = false ∧ instr.isTerminator = false ∧
      instr.isLabel = false ∧ instr.Checked)
    (sameShape : List.Forall₂ Instr.SameShape block.body body) :
    image.successors = block.successors ∧ image.WellFormed ∧ image.phis = merges ∧
      image.body = others ++ body := by
  have inBody : ∀ instr ∈ block.body, instr ∈ block.instrs := fun instr member => by
    rw [← block.phis_append_body]
    exact List.mem_append_right _ member
  have bodyPlain : ∀ instr ∈ body, instr.isPhi = false ∧ instr.isLabel = false ∧ instr.Checked := by
    intro instr member
    obtain ⟨original, inside, shape⟩ := exists_of_forall₂_right sameShape member
    exact ⟨shape.isPhi_eq.trans (wellFormed.phis_first original inside),
      shape.isLabel_eq.trans (wellFormed.unlabelled original (inBody original inside)),
      shape.checked (wellFormed.checked original (inBody original inside))⟩
  have notPhi : ∀ instr ∈ others ++ body, instr.isPhi = false := by
    intro instr member
    rcases List.mem_append.1 member with isOther | inBody
    · exact (arePlain instr isOther).1
    · exact (bodyPlain instr inBody).1
  obtain ⟨phis_eq, body_eq⟩ := phis_of_split split (fun phi member => (areMerges phi member).1) notPhi
  -- The last instruction is the image of the one that ended the block.
  obtain ⟨middle, terminator, isBody, isInstrs, plain, ends⟩ := wellFormed.exists_body
  obtain ⟨middle', terminator', rfl, middleShape, lastShape⟩ : ∃ middle' terminator',
      body = middle' ++ [terminator'] ∧ List.Forall₂ Instr.SameShape middle middle' ∧
        Instr.SameShape terminator terminator' := by
    rw [isBody] at sameShape
    obtain ⟨middle', last, rfl, middleShape, lastShape⟩ := exists_split_of_forall₂ sameShape
    rcases lastShape with _ | ⟨lastShape, ⟨⟩⟩
    exact ⟨middle', _, rfl, middleShape, lastShape⟩
  have endsImage : terminator'.isTerminator = true := lastShape.isTerminator_eq.trans ends
  have image_eq : image.instrs = (merges ++ (others ++ middle')) ++ [terminator'] := by
    rw [split]
    simp only [List.append_assoc]
  have lastChecked : terminator.Checked := wellFormed.checked _ (by rw [isInstrs]; simp)
  refine ⟨?_, ⟨⟨_, _, image_eq, fun instr member => ?_, endsImage⟩, fun instr member => ?_,
    fun instr member => ?_, ?_⟩, phis_eq, body_eq⟩
  · rw [successors_of_terminator (terminator?_of_split image_eq endsImage)
      (lastShape.checked lastChecked) endsImage, lastShape.labels_eq ends,
      successors_of_terminator (terminator?_of_split isInstrs ends) lastChecked ends]
  · rcases List.mem_append.1 member with isMerge | member
    · exact isTerminator_of_isPhi (areMerges instr isMerge).1
    · rcases List.mem_append.1 member with isOther | inMiddle
      · exact (arePlain instr isOther).2.1
      · obtain ⟨original, inside, shape⟩ := exists_of_forall₂_right middleShape inMiddle
        exact shape.isTerminator_eq.trans (plain original inside)
  · rw [split] at member
    rcases List.mem_append.1 member with isMerge | member
    · exact (areMerges instr isMerge).2
    · rcases List.mem_append.1 member with isOther | inBody
      · exact (arePlain instr isOther).2.2.2
      · exact (bodyPlain instr inBody).2.2
  · rw [split] at member
    rcases List.mem_append.1 member with isMerge | member
    · exact Instr.isLabel_of_isPhi (areMerges instr isMerge).1
    · rcases List.mem_append.1 member with isOther | inBody
      · exact (arePlain instr isOther).2.2.1
      · exact (bodyPlain instr inBody).2.1
  · rw [body_eq]
    exact notPhi

end Block

end Midend
