import Mathlib.Data.List.TakeWhile
import Midend.FlowGraph.Edit
import Midend.Proofs.Attempt
import Midend.Proofs.Dominance.Tree
import Midend.Proofs.Instr

/-! # Well-formed flow graphs

Blocks of a well-formed flow graph have names of their own, merges in front, and one instruction at
the end that leads to other blocks; nothing leads to the entry. The successors of the blocks are a
relation on names, `FlowGraph.Leads`, along which runs go and by which dominance is defined. -/

namespace Midend

/-- A list of which every element is kept once has none twice. -/
theorem nodup_eraseDups {α : Type} [BEq α] [LawfulBEq α] (list : List α) :
    list.eraseDups.Nodup := by
  generalize bound : list.length = size
  induction size using Nat.strong_induction_on generalizing list with
  | h size sizeIH =>
    cases list with
    | nil => exact List.nodup_nil
    | cons first rest =>
      rw [List.eraseDups_cons, List.nodup_cons]
      have shorter := List.length_filter_le (fun other => !other == first) rest
      rw [List.length_cons] at bound
      refine ⟨fun member => ?_, sizeIH _ (by omega) _ rfl⟩
      rw [List.mem_eraseDups, List.mem_filter] at member
      simp at member

/-- A relation between two lists may use that elements are in the first one. -/
theorem forall₂_imp_of_mem {α β : Type} {related other : α → β → Prop} {left : List α}
    {right : List β} (relate : List.Forall₂ related left right)
    (implies : ∀ first ∈ left, ∀ second, related first second → other first second) :
    List.Forall₂ other left right := by
  induction relate with
  | nil => exact .nil
  | cons head _ tailIH =>
    exact .cons (implies _ (List.mem_cons_self ..) _ head)
      (tailIH fun first member => implies first (List.mem_cons_of_mem _ member))

/-- Lists that are related one after the other, by a relation that goes on. -/
theorem forall₂_trans {α : Type} {related : α → α → Prop} {left center right : List α}
    (goesOn : ∀ {first second third}, related first second → related second third →
      related first third)
    (early : List.Forall₂ related left center) (late : List.Forall₂ related center right) :
    List.Forall₂ related left right := by
  induction early generalizing right with
  | nil => exact late
  | cons facts _ restIH =>
    cases late with
    | cons others rest => exact .cons (goesOn facts others) (restIH rest)

/-- An element of the first of two related lists has a partner. -/
theorem exists_of_forall₂_left {α β : Type} {related : α → β → Prop} {left : List α}
    {right : List β} (relate : List.Forall₂ related left right) {first : α}
    (member : first ∈ left) : ∃ second ∈ right, related first second := by
  induction relate with
  | nil => cases member
  | cons head _ tailIH =>
    rcases List.mem_cons.1 member with rfl | inTail
    · exact ⟨_, List.mem_cons_self .., head⟩
    · obtain ⟨second, inside, held⟩ := tailIH inTail
      exact ⟨second, List.mem_cons_of_mem _ inside, held⟩

/-- An element of the second of two related lists has a partner. -/
theorem exists_of_forall₂_right {α β : Type} {related : α → β → Prop} {left : List α}
    {right : List β} (relate : List.Forall₂ related left right) {second : β}
    (member : second ∈ right) : ∃ first ∈ left, related first second :=
  exists_of_forall₂_left relate.flip member

/-- Images of related lists are equal when those of partners are. -/
theorem map_eq_of_forall₂ {α β γ : Type} {related : α → β → Prop} {left : List α} {right : List β}
    (relate : List.Forall₂ related left right) {change : α → γ} {other : β → γ}
    (same : ∀ first second, related first second → other second = change first) :
    right.map other = left.map change := by
  induction relate with
  | nil => rfl
  | cons head _ tailIH => rw [List.map_cons, List.map_cons, same _ _ head, tailIH]

/-! ## Blocks -/

namespace Block

/-- Leading merges and body make up a block. -/
theorem phis_append_body (block : Block) : block.phis ++ block.body = block.instrs :=
  List.takeWhile_append_dropWhile

/-- Leading merges are instructions of a block. -/
theorem mem_of_mem_phis {block : Block} {instr : Instr} (member : instr ∈ block.phis) :
    instr ∈ block.instrs := by
  rw [← block.phis_append_body]
  exact List.mem_append_left _ member

/-- Changing the end of a block keeps its name. -/
@[simp] theorem name_mapTerminator (change : Instr → Instr) (block : Block) :
    (block.mapTerminator change).name = block.name := by
  rw [mapTerminator]
  split <;> rfl

/-- What stands behind the leading merges are instructions of a block. -/
theorem mem_of_mem_body {block : Block} {instr : Instr} (member : instr ∈ block.body) :
    instr ∈ block.instrs := by
  rw [← block.phis_append_body]
  exact List.mem_append_right _ member

/-- The leading merges are merges. -/
theorem isPhi_of_mem_phis {block : Block} {phi : Instr} (member : phi ∈ block.phis) :
    phi.isPhi = true := List.mem_takeWhile_imp member

/-- Merges before a list that has none are the leading ones. -/
theorem phis_of_split {block : Block} {phis body : List Instr} (split : block.instrs = phis ++ body)
    (merges : ∀ phi ∈ phis, phi.isPhi = true) (others : ∀ instr ∈ body, instr.isPhi = false) :
    block.phis = phis ∧ block.body = body := by
  have inFront : block.phis = phis := by
    rw [Block.phis, split, List.takeWhile_append_of_pos merges]
    cases body with
    | nil => simp
    | cons instr rest =>
      rw [List.takeWhile_cons_of_neg (by simp [others instr (List.mem_cons_self ..)]),
        List.append_nil]
  refine ⟨inFront, ?_⟩
  have parts := block.phis_append_body
  rw [inFront, split] at parts
  exact List.append_cancel_left parts

/-- A block of instructions that do not merge has no leading merges. -/
theorem phis_eq_nil {block : Block} (unmerged : ∀ instr ∈ block.instrs, instr.isPhi = false) :
    block.phis = [] :=
  (phis_of_split (List.nil_append block.instrs).symm (List.forall_mem_nil _) unmerged).1

/-- An instruction other than a merge stands behind the leading merges. -/
theorem exists_body_split {block : Block} {before after : List Instr} {instr : Instr}
    (split : block.instrs = before ++ instr :: after) (notPhi : instr.isPhi = false) :
    ∃ middle, before = block.phis ++ middle ∧ block.body = middle ++ instr :: after := by
  rw [← block.phis_append_body, List.append_eq_append_iff] at split
  rcases split with ⟨middle, before_eq, body_eq⟩ | ⟨middle, phis_eq, body_eq⟩
  · exact ⟨middle, before_eq, body_eq⟩
  · cases middle with
    | nil => exact ⟨[], by simpa using phis_eq.symm, by simpa using body_eq.symm⟩
    | cons first middle =>
      obtain ⟨rfl, _⟩ := List.cons.inj body_eq
      have isPhi := @isPhi_of_mem_phis block instr (by rw [phis_eq]; simp)
      rw [notPhi] at isPhi
      cases isPhi

/-- A block of well-formed instructions: merges stand in front, and the last instruction, and no
other, ends the block. -/
structure WellFormed (block : Block) : Prop where
  /-- The last instruction ends the block, and no other does. -/
  exists_end : ∃ front terminator, block.instrs = front ++ [terminator] ∧
    (∀ instr ∈ front, instr.isTerminator = false) ∧ terminator.isTerminator = true
  /-- Instructions are well-formed. -/
  checked : ∀ instr ∈ block.instrs, instr.Checked
  /-- There is no label. -/
  unlabelled : ∀ instr ∈ block.instrs, instr.isLabel = false
  /-- Merges stand in front. -/
  phis_first : ∀ instr ∈ block.body, instr.isPhi = false

/-- The last instruction of a block, if it ends the block. -/
theorem terminator?_of_split {block : Block} {front : List Instr} {terminator : Instr}
    (split : block.instrs = front ++ [terminator]) (ends : terminator.isTerminator = true) :
    block.terminator? = some terminator := by
  rw [terminator?, split, List.getLast?_append_of_ne_nil _ (by simp)]
  simp [ends]

/-- A merge does not end a block. -/
theorem isTerminator_of_isPhi {instr : Instr} (isPhi : instr.isPhi = true) :
    instr.isTerminator = false := by
  obtain ⟨dest, ty, operands, isAction⟩ := Instr.exists_of_isPhi isPhi
  rw [Instr.isTerminator, Instr.op?, isAction]
  rfl

namespace WellFormed

variable {block : Block}

/-- The body of a block ends with the instruction that ends the block. -/
theorem exists_body (wellFormed : block.WellFormed) : ∃ middle terminator,
    block.body = middle ++ [terminator] ∧ block.instrs = (block.phis ++ middle) ++ [terminator] ∧
      (∀ instr ∈ middle, instr.isTerminator = false) ∧ terminator.isTerminator = true := by
  obtain ⟨front, terminator, split, plain, ends⟩ := wellFormed.exists_end
  have parts := block.phis_append_body
  -- The last instruction is no merge, so it is in the body.
  have nonempty : block.body ≠ [] := by
    intro empty
    rw [empty, List.append_nil, split] at parts
    have isPhi := @isPhi_of_mem_phis block terminator (by rw [parts]; simp)
    rw [isTerminator_of_isPhi isPhi] at ends
    cases ends
  obtain ⟨middle, last, body⟩ : ∃ middle last, block.body = middle ++ [last] :=
    ⟨_, _, (List.dropLast_concat_getLast nonempty).symm⟩
  rw [body, ← List.append_assoc, split] at parts
  obtain ⟨same, lastSame⟩ := List.append_inj' parts rfl
  obtain rfl := List.cons.inj lastSame |>.1
  refine ⟨middle, last, body, by rw [split, ← same], fun instr member => ?_, ends⟩
  exact plain instr (by rw [← same]; exact List.mem_append_right _ member)

/-- There is something behind the merges. -/
theorem body_ne_nil (wellFormed : block.WellFormed) : block.body ≠ [] := by
  obtain ⟨middle, terminator, body, _⟩ := wellFormed.exists_body
  simp [body]

/-- Behind the merges only the last instruction ends the block. -/
theorem straight_body (wellFormed : block.WellFormed) :
    ∀ instr ∈ block.body.dropLast, instr.isTerminator = false := by
  obtain ⟨middle, terminator, body, _, plain, _⟩ := wellFormed.exists_body
  rw [body, List.dropLast_concat]
  exact plain

/-- What stands behind the merges is well-formed, and neither a label nor a merge. -/
theorem plain_body (wellFormed : block.WellFormed) : ∀ instr ∈ block.body,
    instr.Checked ∧ instr.isLabel = false ∧ instr.isPhi = false := fun instr member =>
  ⟨wellFormed.checked instr (mem_of_mem_body member),
    wellFormed.unlabelled instr (mem_of_mem_body member), wellFormed.phis_first instr member⟩

/-- Every block has an instruction that ends it. -/
theorem exists_terminator (wellFormed : block.WellFormed) : ∃ terminator,
    block.terminator? = some terminator ∧ terminator ∈ block.instrs ∧ terminator.Checked ∧
      terminator.isTerminator = true := by
  obtain ⟨front, terminator, split, _, ends⟩ := wellFormed.exists_end
  have member : terminator ∈ block.instrs := by rw [split]; simp
  exact ⟨terminator, terminator?_of_split split ends, member, wellFormed.checked _ member, ends⟩

end WellFormed

/-- Instructions put into a block come to those of the block. -/
theorem perm_insertAt (block : Block) (place : Nat) (instrs : List Instr) :
    (block.insertAt place instrs).instrs.Perm (block.instrs ++ instrs) := by
  rw [insertAt, List.append_assoc]
  refine (List.perm_append_comm.append_left (block.instrs.take place)).trans ?_
  rw [← List.append_assoc, List.take_append_drop]

/-- What follows a block is told by its last instruction. -/
theorem successors_of_getLast? {left right : Block}
    (same : left.instrs.getLast?.map (fun instr => (instr.op?, instr.labels)) =
      right.instrs.getLast?.map fun instr => (instr.op?, instr.labels)) :
    left.successors = right.successors := by
  unfold successors terminator?
  cases isLeft : left.instrs.getLast? with
  | none =>
    rw [isLeft] at same
    rw [Option.map_eq_none_iff.1 same.symm]
  | some first =>
    rw [isLeft] at same
    obtain ⟨second, isRight, alike⟩ := Option.map_eq_some_iff.1 same.symm
    obtain ⟨op_eq, labels_eq⟩ := Prod.mk.inj alike
    have ends_eq : second.isTerminator = first.isTerminator := by
      rw [Instr.isTerminator, Instr.isTerminator, op_eq]
    rw [isRight, Option.filter_some, Option.filter_some, ends_eq]
    cases first.isTerminator with
    | false => rfl
    | true => simp only [if_true, op_eq, labels_eq]

/-- The successors are the labels of the instruction that ends the block, each listed once. -/
theorem successors_of_terminator {block : Block} {terminator : Instr}
    (found : block.terminator? = some terminator) (checked : terminator.Checked)
    (ends : terminator.isTerminator = true) :
    block.successors = terminator.labels.eraseDups := by
  rw [successors, found]
  rcases Instr.terminator_cases checked ends with ⟨operands, target, action, _, labels⟩ |
    ⟨operands, condition, positive, negative, action, _, labels⟩ | ⟨operands, action, labels⟩
  all_goals simp [Instr.op?, Instr.labels, action, Action.op?, Action.operands, labels]

/-- The parts of the body of a block: what comes before its end, and the end. -/
theorem WellFormed.of_body_eq {block : Block} (wellFormed : block.WellFormed) {middle : List Instr}
    {terminator : Instr} (body_eq : block.body = middle ++ [terminator]) :
    terminator ∈ block.instrs ∧ terminator.Checked ∧ terminator.isTerminator = true ∧
      block.successors = terminator.labels.eraseDups ∧
      ∀ instr ∈ middle, instr.isTerminator = false := by
  obtain ⟨front, ending, body_eq', split, goesOn, ends⟩ := wellFormed.exists_body
  obtain ⟨rfl, same⟩ := List.append_inj' (body_eq.symm.trans body_eq') rfl
  obtain rfl := (List.cons.inj same).1
  have member : terminator ∈ block.instrs := by rw [split]; simp
  have checked := wellFormed.checked _ member
  exact ⟨member, checked, ends,
    successors_of_terminator (terminator?_of_split split ends) checked ends, goesOn⟩

/-- A block that is a jump is well-formed and leads to where the jump leads. -/
theorem wellFormed_of_jump {block : Block} {jump : Instr} {target : String}
    (isJump : block.instrs = [jump]) (action : jump.action = (Instr.jmp target).action) :
    block.WellFormed ∧ block.successors = [target] := by
  obtain ⟨ends, checked, notLabel, notPhi⟩ := Instr.jmp_spec action
  have split : block.instrs = [] ++ [jump] := isJump
  have only : ∀ {holds : Instr → Prop}, holds jump → ∀ instr ∈ block.instrs, holds instr := by
    intro holds held instr member
    rw [isJump, List.mem_singleton] at member
    rwa [member]
  refine ⟨⟨⟨[], jump, split, nofun, ends⟩, only checked, only notLabel, fun instr member =>
    @only (·.isPhi = false) notPhi instr (mem_of_mem_body member)⟩, ?_⟩
  rw [successors_of_terminator (terminator?_of_split split ends) checked ends, Instr.labels, action]
  rfl

/-- No successor is listed twice. -/
theorem nodup_successors (block : Block) : block.successors.Nodup := by
  unfold successors
  split
  · split
    · exact nodup_eraseDups _
    · exact nodup_eraseDups _
    · exact List.nodup_nil
  · exact List.nodup_nil

/-- Inserting instructions adds their number. -/
theorem length_insertAt (block : Block) (position : Nat) (instrs : List Instr) :
    (block.insertAt position instrs).instrs.length = block.instrs.length + instrs.length := by
  rw [insertAt]
  simp only [List.length_append, List.length_take, List.length_drop]
  omega

end Block

/-! ## Flow graphs -/

namespace FlowGraph

/-- The name of the entry. -/
def entryName (graph : FlowGraph) : String :=
  match graph.blocks with
  | first :: _ => first.name
  | [] => ""

/-- Blocks that are replaced by ones of the same names keep the list of names. -/
theorem map_name_of_forall₂ {replaces : Block → Block → Prop} {left right : List Block}
    (images : List.Forall₂ replaces left right)
    (name_eq : ∀ block image, replaces block image → image.name = block.name) :
    right.map Block.name = left.map Block.name := map_eq_of_forall₂ images name_eq

/-- One block leads to another. -/
def Leads (graph : FlowGraph) (source target : String) : Prop :=
  target ∈ graph.successorsOf source

/-- One block dominates another. -/
def Dominates (graph : FlowGraph) (upper lower : String) : Prop :=
  Midend.Dominates graph.Leads graph.entryName upper lower

/-- A block that the entry reaches. -/
def Reachable (graph : FlowGraph) (name : String) : Prop :=
  Reaches graph.Leads graph.entryName name

/-- A flow graph of well-formed blocks with distinct names, in which edges lead to blocks but none to
the entry. -/
structure WellFormed (graph : FlowGraph) : Prop where
  /-- There is an entry. -/
  nonempty : graph.blocks ≠ []
  /-- Blocks have names of their own. -/
  nodup_names : graph.names.Nodup
  /-- Blocks are well-formed. -/
  blocks : ∀ block ∈ graph.blocks, block.WellFormed
  /-- Edges lead to blocks. -/
  target_mem : ∀ block ∈ graph.blocks, ∀ target ∈ block.successors, target ∈ graph.names
  /-- No edge leads to the entry. -/
  entry_fresh : ∀ block ∈ graph.blocks, graph.entryName ∉ block.successors
  /-- Parameters have names of their own. -/
  nodup_params : graph.paramNames.Nodup

variable {graph : FlowGraph}

/-- The block found by a name, in a flow graph whose blocks have names of their own. -/
theorem find?_eq_some_iff (nodup : graph.names.Nodup) {name : String} {block : Block} :
    graph.find? name = some block ↔ block ∈ graph.blocks ∧ block.name = name := by
  constructor
  · intro found
    exact ⟨List.mem_of_find?_eq_some found, by simpa using List.find?_some found⟩
  · rintro ⟨member, rfl⟩
    obtain ⟨other, found⟩ : ∃ other, graph.find? block.name = some other := by
      rw [← Option.isSome_iff_exists, find?, List.find?_isSome]
      exact ⟨block, member, by simp⟩
    have sameName : other.name = block.name := by simpa using List.find?_some found
    rw [found, List.inj_on_of_nodup_map nodup (List.mem_of_find?_eq_some found) member sameName]

/-- A name with a block is the name of a block. -/
theorem exists_find?_iff {name : String} :
    (∃ block, graph.find? name = some block) ↔ name ∈ graph.names := by
  rw [← Option.isSome_iff_exists, find?, List.find?_isSome, names, List.mem_map]
  simp

/-- Whether there is a block of a name. -/
theorem hasBlock_iff {name : String} : graph.hasBlock name = true ↔ name ∈ graph.names := by
  rw [hasBlock, Option.isSome_iff_exists, exists_find?_iff]

/-- The blocks that lead to a name. -/
theorem mem_predecessorsOf {source target : String} :
    source ∈ graph.predecessorsOf target ↔
      ∃ block ∈ graph.blocks, block.name = source ∧ target ∈ block.successors := by
  simp only [predecessorsOf, List.mem_map, List.mem_filter, List.contains_iff_mem]
  constructor
  · rintro ⟨block, ⟨member, leads⟩, same⟩
    exact ⟨block, member, same, leads⟩
  · rintro ⟨block, member, same, leads⟩
    exact ⟨block, ⟨member, leads⟩, same⟩

/-- The blocks that lead to a name are listed once. -/
theorem nodup_predecessorsOf (nodup : graph.names.Nodup) (name : String) :
    (graph.predecessorsOf name).Nodup :=
  nodup.sublist ((List.filter_sublist (l := graph.blocks)).map Block.name)

/-- One block leads to another when it is found by its name and has the other as a successor. -/
theorem leads_iff {source target : String} :
    graph.Leads source target ↔
      ∃ block, graph.find? source = some block ∧ target ∈ block.successors := by
  rw [Leads, successorsOf]
  cases graph.find? source with
  | none => simp
  | some block => simp

/-- A block leads to its successors. -/
theorem leads_of_mem (nodup : graph.names.Nodup) {block : Block} (member : block ∈ graph.blocks)
    {target : String} (leads : target ∈ block.successors) : graph.Leads block.name target :=
  leads_iff.2 ⟨block, (find?_eq_some_iff nodup).2 ⟨member, rfl⟩, leads⟩

/-- The blocks that lead to a name, by their edges. -/
theorem mem_predecessorsOf_iff_leads (nodup : graph.names.Nodup) {source target : String} :
    source ∈ graph.predecessorsOf target ↔ graph.Leads source target := by
  rw [mem_predecessorsOf, leads_iff]
  simp only [find?_eq_some_iff nodup, and_assoc]

/-- Successors in the map of successors are those of blocks. -/
theorem succeeds_successorMap (nodup : graph.names.Nodup) :
    Succeeds graph.successorMap = graph.Leads := by
  funext source target
  rw [Succeeds, leads_iff]
  have keysNodup : ((graph.blocks.map fun block => (block.name, block.successors)).map
      Prod.fst).Nodup := by
    rwa [List.map_map]
  simp only [successorMap, SortedMap.get?_ofList_eq_some_iff keysNodup, List.mem_map,
    Prod.mk.injEq, find?_eq_some_iff nodup, eq_iff_iff]
  constructor
  · rintro ⟨targets, ⟨block, member, rfl, rfl⟩, leads⟩
    exact ⟨block, ⟨member, rfl⟩, leads⟩
  · rintro ⟨block, ⟨member, rfl⟩, leads⟩
    exact ⟨_, ⟨block, member, rfl, rfl⟩, leads⟩

/-- Changing all blocks changes what is found. -/
theorem find?_map (graph : FlowGraph) {other : FlowGraph} (change : Block → Block)
    (sameName : ∀ block, (change block).name = block.name)
    (blocks_eq : other.blocks = graph.blocks.map change) (name : String) :
    other.find? name = (graph.find? name).map change := by
  have samePredicate : ((fun block => block.name == name) ∘ change) = fun block : Block =>
      block.name == name := by
    funext block
    rw [Function.comp_apply, sameName]
  rw [find?, find?, blocks_eq, List.find?_map, samePredicate]

/-- Changing the block of a name changes what is found by that name. -/
theorem find?_modifyBlock (graph : FlowGraph) (change : Block → Block)
    (sameName : ∀ block, (change block).name = block.name) (name other : String) :
    (graph.modifyBlock name change).find? other =
      (graph.find? other).map fun block => if block.name = name then change block else block := by
  refine find?_map graph _ (fun block => ?_) rfl other
  split
  · exact sameName block
  · rfl

/-- Changing the block of a name keeps the names, if it keeps that one. -/
theorem names_modifyBlock_of {graph : FlowGraph} {name : String} {change : Block → Block}
    (sameName : ∀ block, block.name = name → (change block).name = name) :
    (graph.modifyBlock name change).names = graph.names := by
  rw [names, names, modifyBlock, List.map_map]
  refine List.map_congr_left fun block _ => ?_
  rw [Function.comp_apply]
  split
  · rename_i isName
    rw [sameName block isName, isName]
  · rfl

/-- Changing the block of a name keeps the names. -/
theorem names_modifyBlock (graph : FlowGraph) (change : Block → Block)
    (sameName : ∀ block, (change block).name = block.name) (name : String) :
    (graph.modifyBlock name change).names = graph.names :=
  names_modifyBlock_of fun block isName => (sameName block).trans isName

/-- Changing the blocks of a name, of which there is one, adds its new instructions. -/
theorem length_instrs_map {blocks : List Block} (nodup : (blocks.map Block.name).Nodup)
    (name : String) (change : Block → Block) {more : Nat}
    (adds : ∀ block ∈ blocks, block.name = name →
      (change block).instrs.length ≤ block.instrs.length + more) :
    ((blocks.map fun block => if block.name = name then change block else block).flatMap
      Block.instrs).length ≤ (blocks.flatMap Block.instrs).length + more := by
  induction blocks with
  | nil => simp
  | cons block rest restIH =>
    rw [List.map_cons, List.nodup_cons] at nodup
    rw [List.map_cons, List.flatMap_cons, List.flatMap_cons, List.length_append, List.length_append]
    by_cases same : block.name = name
    · have others : (rest.map fun block => if block.name = name then change block else block) =
          rest := by
        refine (List.map_congr_left fun other member => if_neg fun isName => ?_).trans (List.map_id _)
        exact nodup.1 (List.mem_map.2 ⟨other, member, isName.trans same.symm⟩)
      have here := adds block (List.mem_cons_self ..) same
      rw [if_pos same, others]
      omega
    · have later := restIH nodup.2 fun other member => adds other (List.mem_cons_of_mem _ member)
      rw [if_neg same]
      omega

/-- What holds of all instructions, and of those of a changed block, holds after the change. -/
theorem forall_instrs_map {holds : Instr → Prop} {blocks : List Block} (name : String)
    (change : Block → Block) (held : ∀ instr ∈ blocks.flatMap Block.instrs, holds instr)
    (changed : ∀ block ∈ blocks, block.name = name →
      ∀ instr ∈ (change block).instrs, holds instr) :
    ∀ instr ∈ (blocks.map fun block => if block.name = name then change block else block).flatMap
      Block.instrs, holds instr := by
  intro instr member
  obtain ⟨image, isImage, inside⟩ := List.mem_flatMap.1 member
  obtain ⟨block, isBlock, rfl⟩ := List.mem_map.1 isImage
  split at inside
  · rename_i same
    exact changed block isBlock same instr inside
  · exact held instr (List.mem_flatMap.2 ⟨block, isBlock, inside⟩)

/-- The entry is a block, if there are blocks. -/
theorem exists_first_block (nonempty : graph.blocks ≠ []) :
    ∃ first, graph.blocks.head? = some first ∧ first ∈ graph.blocks ∧
      first.name = graph.entryName := by
  unfold entryName
  revert nonempty
  cases graph.blocks with
  | nil => exact fun impossible => absurd rfl impossible
  | cons first rest => exact fun _ => ⟨first, rfl, List.mem_cons_self .., rfl⟩

/-- The entry is that of any flow graph with the same first block. -/
theorem entryName_of_head? {after : FlowGraph} (head_eq : after.blocks.head? = graph.blocks.head?) :
    after.entryName = graph.entryName := by
  have name_eq : ∀ graph : FlowGraph, graph.entryName = (graph.blocks.head?.map Block.name).getD "" := by
    intro graph
    unfold entryName
    cases graph.blocks <;> rfl
  rw [name_eq, name_eq, head_eq]

/-- A flow graph whose edges lead to blocks has dominators. -/
theorem exists_dominance_of_targets (nonempty : graph.blocks ≠ []) (nodup : graph.names.Nodup)
    (targets : ∀ block ∈ graph.blocks, ∀ target ∈ block.successors, target ∈ graph.names) :
    ∃ dominance, Dominance.ofFlowGraph graph = .ok dominance ∧
      dominance.Built graph.successorMap graph.entryName := by
  obtain ⟨first, isFirst, member, same⟩ := exists_first_block nonempty
  have computes : Dominance.ofFlowGraph graph =
      Dominance.ofSuccessors graph.successorMap graph.entryName := by
    rw [Dominance.ofFlowGraph, entryName]
    cases isBlocks : graph.blocks with
    | nil => exact absurd isBlocks nonempty
    | cons first rest => rfl
  have keys : ∀ {name}, name ∈ graph.successorMap.keys ↔ name ∈ graph.names := by
    intro name
    rw [successorMap, SortedMap.mem_keys_ofList, List.map_map]
    rfl
  rw [computes]
  rcases Dominance.ofSuccessors_cases graph.successorMap graph.entryName with found | ⟨open', _⟩
  · exact found
  · refine absurd ⟨keys.2 (same ▸ List.mem_map_of_mem member), ?_⟩ open'
    intro source target succeeds
    rw [succeeds_successorMap nodup] at succeeds
    obtain ⟨block, found, leads⟩ := leads_iff.1 succeeds
    exact keys.2 (targets block (List.mem_of_find?_eq_some found) target leads)

namespace WellFormed

/-- The entry is a block. -/
theorem exists_entry (wellFormed : graph.WellFormed) :
    ∃ first, graph.blocks.head? = some first ∧ first ∈ graph.blocks ∧
      first.name = graph.entryName := exists_first_block wellFormed.nonempty

/-- Nothing leads to the entry. -/
theorem not_leads_entry (wellFormed : graph.WellFormed) (source : String) :
    ¬ graph.Leads source graph.entryName := by
  rw [leads_iff]
  rintro ⟨block, found, leads⟩
  exact wellFormed.entry_fresh block (List.mem_of_find?_eq_some found) leads

/-- The entry has no predecessors. -/
theorem predecessorsOf_entry (wellFormed : graph.WellFormed) :
    graph.predecessorsOf graph.entryName = [] := by
  rw [List.eq_nil_iff_forall_not_mem]
  intro source leads
  rw [mem_predecessorsOf_iff_leads wellFormed.nodup_names] at leads
  exact wellFormed.not_leads_entry source leads

/-- What a block leads to is not the entry. -/
theorem ne_entry_of_leads (wellFormed : graph.WellFormed) {source target : String}
    (leads : graph.Leads source target) : target ≠ graph.entryName := by
  rintro rfl
  exact wellFormed.not_leads_entry source leads

/-- Whatever a block leads to is the name of a block. -/
theorem mem_names_of_leads (wellFormed : graph.WellFormed) {source target : String}
    (leads : graph.Leads source target) : target ∈ graph.names := by
  obtain ⟨block, found, member⟩ := leads_iff.1 leads
  exact wellFormed.target_mem block (List.mem_of_find?_eq_some found) target member

/-- What the entry reaches is the name of a block. -/
theorem mem_names_of_reachable (wellFormed : graph.WellFormed) {name : String}
    (reachable : graph.Reachable name) : name ∈ graph.names := by
  obtain ⟨nodes, path⟩ := reachable
  refine path.invariant (· ∈ graph.names) ?_ fun _ _ _ => wellFormed.mem_names_of_leads
  obtain ⟨first, _, member, same⟩ := wellFormed.exists_entry
  exact same ▸ List.mem_map_of_mem member

/-- A well-formed flow graph has dominators. -/
theorem exists_dominance (wellFormed : graph.WellFormed) :
    ∃ dominance, Dominance.ofFlowGraph graph = .ok dominance ∧
      dominance.Built graph.successorMap graph.entryName :=
  exists_dominance_of_targets wellFormed.nonempty wellFormed.nodup_names wellFormed.target_mem

end WellFormed

/-! ## Fresh keys -/

/-- A fresh key changes only the supply of keys. -/
theorem freshKey_eq_ok {after : FlowGraph} {key : Nat} (found : graph.freshKey = .ok (key, after)) :
    key = graph.nextKey ∧ after = { graph with nextKey := graph.nextKey + 1 } := by
  unfold freshKey at found
  split at found
  · obtain ⟨rfl, rfl⟩ := Prod.mk.inj (Except.ok.inj found)
    exact ⟨rfl, rfl⟩
  · cases found

/-- A fresh key can be written. -/
theorem freshKey_spec {after : FlowGraph} {key : Nat}
    (found : graph.freshKey = .ok (key, after)) :
    key < keyLimit ∧ after = { graph with nextKey := graph.nextKey + 1 } := by
  unfold freshKey at found
  split at found
  · obtain ⟨rfl, rfl⟩ := Prod.mk.inj (Except.ok.inj found)
    exact ⟨by omega, rfl⟩
  · cases found

/-- A key is given out as long as there is one left. -/
theorem freshKey_cases (graph : FlowGraph) :
    graph.freshKey = .ok (graph.nextKey, { graph with nextKey := graph.nextKey + 1 }) ∨
      (graph.freshKey = .error .keysExhausted ∧ keyLimit ≤ graph.nextKey + 1) := by
  unfold freshKey
  split
  · exact .inl rfl
  · exact .inr ⟨rfl, by omega⟩

/-- An instruction with another key. -/
def Rekeyed (instr keyed : Instr) : Prop := ∃ key, keyed = instr.withKey key

/-- Keys are given out as long as there are enough left. -/
theorem freshKeys_cases (graph : FlowGraph) (instrs : List Instr) :
    (∃ keyed, graph.freshKeys instrs =
        .ok (keyed, { graph with nextKey := graph.nextKey + instrs.length }) ∧
      List.Forall₂ Rekeyed instrs keyed) ∨
    (graph.freshKeys instrs = .error .keysExhausted ∧ keyLimit ≤ graph.nextKey + instrs.length) := by
  induction instrs generalizing graph with
  | nil => exact .inl ⟨[], rfl, .nil⟩
  | cons instr rest restIH =>
    rw [freshKeys, List.length_cons]
    rcases graph.freshKey_cases with given | ⟨failed, exhausted⟩
    · rw [given, Attempt.ok_bind]
      rcases restIH { graph with nextKey := graph.nextKey + 1 } with
        ⟨keyed, givenRest, rekeyed⟩ | ⟨failed, exhausted⟩
      · refine .inl ⟨instr.withKey graph.nextKey :: keyed, ?_, .cons ⟨_, rfl⟩ rekeyed⟩
        dsimp only
        rw [givenRest, Attempt.ok_bind, Nat.add_assoc, Nat.add_comm 1]
        rfl
      · refine .inr ⟨?_, by dsimp only at exhausted; omega⟩
        dsimp only
        rw [failed]
        rfl
    · exact .inr ⟨by rw [failed]; rfl, by omega⟩

/-- Keys have no part in what instructions write. -/
theorem filterMap_dest?_of_rekeyed {instrs keyed : List Instr}
    (rekeyed : List.Forall₂ Rekeyed instrs keyed) :
    keyed.filterMap Instr.dest? = instrs.filterMap Instr.dest? := by
  induction rekeyed with
  | nil => rfl
  | cons isKeyed _ restIH =>
    obtain ⟨key, rfl⟩ := isKeyed
    rw [List.filterMap_cons, List.filterMap_cons, restIH]
    rfl

/-- A rekeyed instruction comes from one of the list. -/
theorem exists_of_rekeyed {instrs keyed : List Instr}
    (rekeyed : List.Forall₂ Rekeyed instrs keyed) {instr : Instr} (member : instr ∈ keyed) :
    ∃ original ∈ instrs, ∃ key, instr = original.withKey key :=
  exists_of_forall₂_right rekeyed member

/-- Fresh keys change only the keys of instructions and the supply. -/
theorem freshKeys_eq_ok {instrs keyed : List Instr} {graph after : FlowGraph}
    (found : graph.freshKeys instrs = .ok (keyed, after)) :
    List.Forall₂ Rekeyed instrs keyed ∧
      after = { graph with nextKey := graph.nextKey + instrs.length } := by
  rcases graph.freshKeys_cases instrs with ⟨_, given, rekeyed⟩ | ⟨failed, _⟩
  · obtain ⟨rfl, rfl⟩ := Prod.mk.inj (Except.ok.inj (given.symm.trans found))
    exact ⟨rekeyed, rfl⟩
  · cases failed.symm.trans found

/-- Fresh keys are given out in order. -/
theorem map_key_of_freshKeys {instrs keyed : List Instr} {after : FlowGraph}
    (found : graph.freshKeys instrs = .ok (keyed, after)) :
    keyed.map Instr.key = List.range' graph.nextKey instrs.length := by
  induction instrs generalizing graph keyed after with
  | nil =>
    obtain ⟨rfl, _⟩ := Prod.mk.inj (Except.ok.inj found)
    rfl
  | cons instr rest restIH =>
    obtain ⟨⟨key, middle⟩, isKey, found⟩ := Attempt.bind_eq_ok.1 found
    obtain ⟨⟨others, last⟩, isRest, found⟩ := Attempt.bind_eq_ok.1 found
    obtain ⟨rfl, _⟩ := Prod.mk.inj (Except.ok.inj found)
    obtain ⟨rfl, rfl⟩ := freshKey_eq_ok isKey
    rw [List.map_cons, restIH isRest, List.length_cons, List.range'_succ]
    rfl

/-- Keys can only run out. -/
theorem freshKeys_eq_error {instrs : List Instr} {graph : FlowGraph} {error : Error}
    (failed : graph.freshKeys instrs = .error error) :
    error = .keysExhausted ∧ keyLimit ≤ graph.nextKey + instrs.length := by
  rcases graph.freshKeys_cases instrs with ⟨_, given, _⟩ | ⟨exhausted, many⟩
  · cases given.symm.trans failed
  · exact ⟨Except.error.inj (failed.symm.trans exhausted), many⟩

/-! ## Blocks on edges -/

/-- The blocks before a new one is put on the edges between two of them: the source leads to the new
one, and leading merges in the target name it. -/
def linked (graph : FlowGraph) (source target middle : String) : FlowGraph :=
  (graph.modifyBlock source
    (Block.mapTerminator (Instr.mapLabels (replaceName target middle)))).modifyBlock target
      (Block.mapPhis (Instr.mapLabels (replaceName source middle)))

/-- Linking blocks keeps their names. -/
theorem names_linked (graph : FlowGraph) (source target middle : String) :
    (graph.linked source target middle).names = graph.names := by
  rw [linked, names_modifyBlock _ (Block.mapPhis _) fun _ => rfl,
    names_modifyBlock _ (Block.mapTerminator _) (Block.name_mapTerminator _)]

/-- When an edge is split, there was one, the new block has a new name, and it stands somewhere
between the linked ones. -/
theorem splitEdge_eq_ok {after : FlowGraph} {source target middle : String}
    (split : graph.splitEdge source target = .ok (middle, after)) :
    graph.Leads source target ∧ middle ∉ graph.names ∧ graph.nextKey < keyLimit ∧
      ∃ place nextBlock, after = { graph with
        blocks := (graph.linked source target middle).blocks.take place ++
          ⟨middle, [(Instr.jmp target).withKey graph.nextKey]⟩ ::
            (graph.linked source target middle).blocks.drop place
        nextKey := graph.nextKey + 1
        nextBlock } := by
  unfold splitEdge at split
  cases isIndex : graph.indexOf? source <;> rw [isIndex] at split
  case none => cases split
  cases isTarget : graph.hasBlock target <;> simp only [isTarget] at split
  case false => cases split
  cases hasEdge : (graph.successorsOf source).contains target <;> simp only [hasEdge] at split
  case false => cases split
  obtain ⟨⟨key, keyed⟩, given, split⟩ := Attempt.bind_eq_ok.1 split
  obtain ⟨last, inserted, split⟩ := Attempt.bind_eq_ok.1 split
  obtain ⟨rfl, rfl⟩ := Prod.mk.inj (Except.ok.inj split)
  have low := (freshKey_spec given).1
  obtain ⟨rfl, rfl⟩ := freshKey_eq_ok given
  unfold insertBlock at inserted
  split at inserted
  · cases inserted
  · rename_i unknown
    obtain rfl := Except.ok.inj inserted
    refine ⟨List.contains_iff_mem.1 hasEdge, fun isName => unknown (hasBlock_iff.2 ?_), low, _, _, rfl⟩
    exact (names_linked graph source target _).symm ▸ isName

/-- Splitting an edge adds one name. -/
theorem names_splitEdge {after : FlowGraph} {source target middle : String}
    (split : graph.splitEdge source target = .ok (middle, after)) :
    after.names.Perm (middle :: graph.names) := by
  obtain ⟨_, _, _, place, _, rfl⟩ := splitEdge_eq_ok split
  have linked := graph.names_linked source target middle
  refine (List.perm_middle.map Block.name).trans ?_
  rw [List.take_append_drop, List.map_cons]
  exact .cons _ (.of_eq linked)

end FlowGraph

end Midend
