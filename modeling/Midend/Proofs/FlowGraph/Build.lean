import Mathlib.Data.List.SplitBy
import Midend.FlowGraph.Build
import Midend.Proofs.FlowGraph.Flatten
import Midend.Proofs.Fresh
import Midend.Proofs.Func

/-! # From functions to flow graphs

The flow graph of a function without merges is well-formed and yields what the function yields
(`FlowGraph.builtFrom_of_build`). Both follow from how the flat code lies over the blocks
(`FlowGraph.Laid`). -/

namespace Midend

namespace FlowGraph

/-! ## Segments -/

/-- Whether an instruction may follow another one in a block: the other one does not end the block,
and the instruction is no label. -/
def mayFollow (instr next : Instr) : Bool := !instr.isTerminator && !next.isLabel

/-- The stretches of code that become blocks: behind the first instruction, a new one starts exactly
with labels and with instructions that follow the end of a block. -/
def stretches (code : List Instr) : List (List Instr) :=
  if code.isEmpty then [[]] else code.splitBy mayFollow

/-- The segment that a stretch of code becomes: a label in front is taken off. -/
def segmentOf (stretch : List Instr) : Segment :=
  (stretch.head?.bind Instr.labelName?, stretch.filter fun instr => !instr.isLabel)

/-- A label alone is a segment without instructions. -/
theorem segmentOf_label {instr : Instr} {name : String} (isLabel : instr.action = .label name) :
    segmentOf [instr] = (some name, []) := by
  rw [segmentOf, List.head?_cons, Option.bind_some, Instr.labelName?_eq_some_iff.2 isLabel]
  simp [Instr.isLabel, isLabel]

/-- An instruction other than a label comes to the instructions of a segment. -/
theorem segmentOf_concat (stretch : List Instr) {instr : Instr}
    (unlabelled : instr.isLabel = false) :
    segmentOf (stretch ++ [instr]) =
      ((segmentOf stretch).1, (segmentOf stretch).2 ++ [instr]) := by
  have kept : [instr].filter (fun instr => !instr.isLabel) = [instr] := by simp [unlabelled]
  rw [segmentOf, List.filter_append, kept]
  cases stretch with
  | nil => simp [segmentOf, Instr.labelName?_eq_none unlabelled]
  | cons first rest => rfl

/-- A stretch without a boundary is one segment, if there is anything in it. -/
theorem map_segmentOf_splitBy {stretch : List Instr}
    (chain : stretch.IsChain fun instr next => mayFollow instr next) :
    (stretch.splitBy mayFollow).map segmentOf =
      if Segment.isSome (segmentOf stretch) then [segmentOf stretch] else [] := by
  cases stretch with
  | nil => rfl
  | cons instr rest =>
    have isSome : Segment.isSome (segmentOf (instr :: rest)) = true := by
      rw [Segment.isSome, Bool.or_eq_true]
      cases isLabel : instr.isLabel with
      | false => exact .inr (by simp [segmentOf, isLabel])
      | true =>
        obtain ⟨name, action⟩ := Instr.exists_of_isLabel isLabel
        exact .inl (by simp [segmentOf, Instr.labelName?_eq_some_iff.2 action])
    rw [List.splitBy_of_isChain (List.cons_ne_nil _ _) chain, if_pos isSome]
    rfl

/-- Cutting code goes on with a stretch that does not end yet. -/
theorem cutFrom_eq {stretch code : List Instr}
    (chain : stretch.IsChain fun instr next => mayFollow instr next)
    (goesOn : ∀ last ∈ stretch.getLast?, last.isTerminator = false) :
    cutFrom (segmentOf stretch) code = ((stretch ++ code).splitBy mayFollow).map segmentOf := by
  induction code generalizing stretch with
  | nil => rw [cutFrom, List.append_nil, map_segmentOf_splitBy chain]
  | cons instr rest restIH =>
    rw [cutFrom]
    split
    · rename_i name isLabel
      -- A label opens a stretch of its own, which goes on because a label ends nothing.
      have fromLabel := @restIH [instr] (List.isChain_singleton _) (by
        rintro _ ⟨⟩
        simp [Instr.isTerminator, Instr.op?, isLabel, Action.op?])
      rw [segmentOf_label isLabel, List.singleton_append] at fromLabel
      rw [List.splitBy_append_cons _ fun last _ => by simp [mayFollow, Instr.isLabel, isLabel],
        List.map_append, map_segmentOf_splitBy chain, fromLabel]
      split <;> rfl
    · rename_i other
      have unlabelled : instr.isLabel = false := by
        unfold Instr.isLabel
        split
        · rename_i name isLabel
          exact absurd isLabel (other name)
        · rfl
      have chain' : (stretch ++ [instr]).IsChain fun instr next => mayFollow instr next := by
        refine List.isChain_append.2 ⟨chain, List.isChain_singleton _, ?_⟩
        rintro last isLast _ ⟨⟩
        simp [mayFollow, goesOn last isLast, unlabelled]
      -- Whether the longer stretch goes on depends on the instruction that was added.
      have isLast : ∀ last ∈ (stretch ++ [instr]).getLast?, last = instr := by
        intro last isLast
        rw [List.getLast?_concat] at isLast
        exact (Option.some.inj isLast).symm
      rw [show stretch ++ instr :: rest = stretch ++ [instr] ++ rest from List.append_cons ..]
      dsimp only
      rw [← segmentOf_concat stretch unlabelled]
      split
      · rename_i ends
        have fromNext := @restIH [] .nil (by simp)
        rw [List.splitBy_append fun last atEnd next _ => by
            rw [isLast last atEnd]; simp [mayFollow, ends],
          List.map_append, List.splitBy_of_isChain (by simp) chain']
        exact congrArg (segmentOf (stretch ++ [instr]) :: ·) fromNext
      · rename_i plain
        exact restIH chain' fun last atEnd => by rw [isLast last atEnd]; simpa using plain

/-- Code is cut into its stretches. -/
theorem cut_eq (code : List Instr) : cut code = (stretches code).map segmentOf := by
  have whole := @cutFrom_eq [] code .nil (by simp)
  cases code with
  | nil => rfl
  | cons instr rest =>
    have nonempty : ((instr :: rest).splitBy mayFollow).map segmentOf ≠ [] := by simp
    rw [stretches, if_neg (by simp), cut, show cutFrom (none, []) (instr :: rest) = _ from whole]
    split
    · rename_i empty
      exact absurd empty nonempty
    · rfl

/-- Instructions without labels of which only the last may end a block. -/
structure Straight (instrs : List Instr) : Prop where
  /-- There is no label. -/
  unlabelled : ∀ instr ∈ instrs, instr.isLabel = false
  /-- Only the last instruction may end a block. -/
  plain : ∀ instr ∈ instrs.dropLast, instr.isTerminator = false

/-- The instructions that introduce a segment: a label if it has one. -/
def Opens (name : Option String) (opening : List Instr) : Prop :=
  match name with
  | some name => ∃ label, opening = [label] ∧ label.action = .label name
  | none => opening = []

/-- Segments that make up code. -/
inductive Segmented : List Segment → List Instr → Prop where
  /-- No segment makes up no code. -/
  | nil : Segmented [] []
  /-- A segment is introduced and then holds instructions. -/
  | cons (segment : Segment) (opening : List Instr) {segments : List Segment} {code : List Instr} :
      Opens segment.1 opening → Straight segment.2 → Segmented segments code →
        Segmented (segment :: segments) (opening ++ (segment.2 ++ code))

/-- Where no boundary is, only the first instruction may be a label, and only the last one may end a
block. -/
theorem unlabelled_tail_of_chain {stretch : List Instr}
    (chain : stretch.IsChain fun instr next => mayFollow instr next) :
    (∀ instr ∈ stretch.tail, instr.isLabel = false) ∧
      ∀ instr ∈ stretch.dropLast, instr.isTerminator = false := by
  induction chain with
  | nil => simp
  | singleton => simp
  | @cons_cons first second rest follows _ restIH =>
    rw [mayFollow, Bool.and_eq_true, Bool.not_eq_true', Bool.not_eq_true'] at follows
    rw [List.tail_cons, List.forall_mem_cons, List.dropLast_cons_cons, List.forall_mem_cons]
    exact ⟨⟨follows.2, restIH.1⟩, follows.1, restIH.2⟩

/-- A stretch is a label, if it starts with one, and straight code. -/
theorem exists_opening {stretch : List Instr}
    (chain : stretch.IsChain fun instr next => mayFollow instr next) :
    ∃ opening, stretch = opening ++ (segmentOf stretch).2 ∧ Opens (segmentOf stretch).1 opening ∧
      Straight (segmentOf stretch).2 := by
  obtain ⟨unlabelled, plain⟩ := unlabelled_tail_of_chain chain
  cases stretch with
  | nil => exact ⟨[], rfl, rfl, by simp [segmentOf], by simp [segmentOf]⟩
  | cons instr rest =>
    rw [List.tail_cons] at unlabelled
    have kept : rest.filter (fun instr => !instr.isLabel) = rest :=
      List.filter_eq_self.2 fun other member => by rw [unlabelled other member]; rfl
    cases isLabel : instr.isLabel with
    | false =>
      have segment : segmentOf (instr :: rest) = (none, instr :: rest) := by
        simp [segmentOf, Instr.labelName?_eq_none isLabel, isLabel, kept]
      rw [segment]
      exact ⟨[], rfl, rfl, List.forall_mem_cons.2 ⟨isLabel, unlabelled⟩, plain⟩
    | true =>
      obtain ⟨name, action⟩ := Instr.exists_of_isLabel isLabel
      have segment : segmentOf (instr :: rest) = (some name, rest) := by
        simp [segmentOf, Instr.labelName?_eq_some_iff.2 action, isLabel, kept]
      rw [segment]
      refine ⟨[instr], rfl, ⟨instr, rfl, action⟩, unlabelled, fun other member => plain other ?_⟩
      cases rest with
      | nil => cases member
      | cons second rest => exact List.mem_cons_of_mem _ member

/-- Stretches have no boundary in them. -/
theorem chain_of_mem_stretches {code stretch : List Instr} (member : stretch ∈ stretches code) :
    stretch.IsChain fun instr next => mayFollow instr next := by
  unfold stretches at member
  split at member
  · rw [List.mem_singleton.1 member]
    exact .nil
  · exact List.isChain_of_mem_splitBy member

/-- The stretches of code make up the code. -/
theorem flatten_stretches (code : List Instr) : (stretches code).flatten = code := by
  unfold stretches
  split
  · rename_i empty
    rw [List.isEmpty_iff.1 empty]
    rfl
  · exact List.flatten_splitBy mayFollow code

/-- Cutting code makes segments of it. -/
theorem segmented_cut (code : List Instr) : Segmented (cut code) code := by
  have general : ∀ pieces : List (List Instr),
      (∀ piece ∈ pieces, piece.IsChain fun instr next => mayFollow instr next) →
      Segmented (pieces.map segmentOf) pieces.flatten := by
    intro pieces
    induction pieces with
    | nil => exact fun _ => .nil
    | cons piece rest restIH =>
      intro chains
      obtain ⟨chain, chains⟩ := List.forall_mem_cons.1 chains
      obtain ⟨opening, split, opens, straight⟩ := exists_opening chain
      rw [List.flatten_cons]
      nth_rewrite 2 [split]
      rw [List.append_assoc]
      exact .cons _ opening opens straight (restIH chains)
  have whole := general (stretches code) fun _ => chain_of_mem_stretches
  rwa [flatten_stretches, ← cut_eq] at whole

/-- There is a segment. -/
theorem cut_ne_nil (code : List Instr) : cut code ≠ [] := by
  unfold cut
  split
  · simp
  · rename_i nonempty
    exact nonempty

/-- The labels of code are those of its segments. -/
theorem Segmented.labelNames {segments : List Segment} {code : List Instr}
    (segmented : Segmented segments code) :
    Func.labelNames code = segments.filterMap Prod.fst := by
  induction segmented with
  | nil => rfl
  | @cons segment opening segments code opens straight _ restIH =>
    have inside : segment.2.filterMap Instr.labelName? = [] := by
      rw [List.filterMap_eq_nil_iff]
      exact fun instr member => Instr.labelName?_eq_none (straight.unlabelled instr member)
    rw [Func.labelNames, List.filterMap_append, List.filterMap_append, inside, List.nil_append,
      List.filterMap_cons]
    unfold Opens at opens
    split at opens
    · rename_i name isName
      obtain ⟨label, rfl, isLabel⟩ := opens
      rw [isName]
      simp only [List.filterMap_cons, List.filterMap_nil, Instr.labelName?_eq_some_iff.2 isLabel]
      exact congrArg (name :: ·) restIH
    · rename_i unnamed
      subst opens
      rw [unnamed]
      exact restIH

/-- The instructions of segments are in the code. -/
theorem Segmented.mem {segments : List Segment} {code : List Instr}
    (segmented : Segmented segments code) {segment : Segment} (member : segment ∈ segments) :
    Straight segment.2 ∧ ∀ instr ∈ segment.2, instr ∈ code := by
  induction segmented with
  | nil => cases member
  | cons _ _ opens straight _ restIH =>
    rcases List.mem_cons.1 member with rfl | inRest
    · exact ⟨straight, fun instr inside =>
        List.mem_append_right _ (List.mem_append_left _ inside)⟩
    · obtain ⟨straight', inside⟩ := restIH inRest
      exact ⟨straight', fun instr inSegment =>
        List.mem_append_right _ (List.mem_append_right _ (inside instr inSegment))⟩

/-! ## Names of blocks -/

/-- A block that a segment became: it has the segment's label as its name, if there is one. -/
def Named (segment : Segment) (block : Block) : Prop :=
  block.instrs = segment.2 ∧ ∀ name, segment.1 = some name → block.name = name

/-- A block with a number from a supply that is none of some labels. -/
def Numbered (function : String) (labels : List String) (counter : Nat) (block : Block) : Prop :=
  ∃ number, counter ≤ number ∧ block.name = numbered function "_" number ∧ block.name ∉ labels

/-- Naming segments keeps labels and gives the other blocks new numbers. -/
theorem forall₂_nameSegments (function : String) (labels : List String) (segments : List Segment)
    (counter : Nat) :
    List.Forall₂ (fun segment block => Named segment block ∧
        (segment.1 = none → Numbered function labels counter block))
      segments (nameSegments function labels counter segments).1 := by
  induction segments generalizing counter with
  | nil => exact .nil
  | cons segment rest restIH =>
    obtain ⟨label, instrs⟩ := segment
    cases label with
    | some name => exact .cons ⟨⟨rfl, fun _ same => Option.some.inj same⟩, nofun⟩ (restIH counter)
    | none =>
      have free := firstFree_spec (numbered_injective function "_") labels.contains labels counter
        (fun number _ isTaken => by simpa using isTaken) (Nat.le_refl _)
      have above := le_firstFree (numbered function "_") labels.contains labels.length counter
      refine .cons ⟨⟨rfl, nofun⟩, fun _ => ⟨_, above, rfl, by simpa using free⟩⟩
        ((restIH _).imp ?_)
      rintro segment block ⟨named, numbered⟩
      refine ⟨named, fun unnamed => ?_⟩
      obtain ⟨number, larger, isNumber, fresh⟩ := numbered unnamed
      exact ⟨number, by omega, isNumber, fresh⟩

/-- The name of a block is a label or a new number. -/
theorem mem_labels_or_numbered {function : String} {labels : List String} {segments : List Segment}
    {counter : Nat} {block : Block}
    (member : block ∈ (nameSegments function labels counter segments).1) :
    block.name ∈ segments.filterMap Prod.fst ∨ Numbered function labels counter block := by
  obtain ⟨segment, inside, named, numbered⟩ :=
    exists_of_forall₂_right (forall₂_nameSegments ..) member
  cases isLabel : segment.1 with
  | none => exact .inr (numbered isLabel)
  | some name =>
    exact .inl (List.mem_filterMap.2 ⟨segment, inside, by rw [isLabel, named.2 _ isLabel]⟩)

/-- Blocks get names of their own. -/
theorem nodup_nameSegments {function : String} {labels : List String} {segments : List Segment}
    (counter : Nat) (known : segments.filterMap Prod.fst ⊆ labels)
    (nodup : (segments.filterMap Prod.fst).Nodup) :
    ((nameSegments function labels counter segments).1.map Block.name).Nodup := by
  induction segments generalizing counter with
  | nil => exact List.nodup_nil
  | cons segment rest restIH =>
    obtain ⟨label, instrs⟩ := segment
    cases label with
    | some name =>
      obtain ⟨notInRest, nodup⟩ := List.nodup_cons.1 nodup
      refine List.nodup_cons.2 ⟨fun member => ?_,
        restIH counter (fun other member => known (List.mem_cons_of_mem _ member)) nodup⟩
      obtain ⟨block, inRest, same⟩ := List.mem_map.1 member
      rcases mem_labels_or_numbered inRest with isLabel | ⟨_, _, _, fresh⟩
      · rw [same] at isLabel
        exact notInRest isLabel
      · rw [same] at fresh
        exact fresh (known (List.mem_cons_self ..))
    | none =>
      have free := firstFree_spec (numbered_injective function "_") labels.contains labels counter
        (fun number _ isTaken => by simpa using isTaken) (Nat.le_refl _)
      refine List.nodup_cons.2 ⟨fun member => ?_, restIH _ known nodup⟩
      obtain ⟨block, inRest, same⟩ := List.mem_map.1 member
      rcases mem_labels_or_numbered inRest with isLabel | ⟨number, larger, isNumber, _⟩
      · rw [same] at isLabel
        simp [known isLabel] at free
      · have := numbered_injective function "_" (isNumber.symm.trans same)
        omega

/-- A new block name is the name of no block. -/
theorem freshBlockName_notMem (graph : FlowGraph) : graph.freshBlockName.1 ∉ graph.names := by
  have free := firstFree_spec (numbered_injective graph.name "_") graph.hasBlock graph.names
    graph.nextBlock (fun number _ isTaken => hasBlock_iff.1 isTaken)
    (Nat.le_of_eq (by rw [names, List.length_map]) : graph.names.length ≤ graph.blocks.length)
  rw [← hasBlock_iff]
  exact Bool.eq_false_iff.1 free

/-- A new block name is not empty. -/
theorem freshBlockName_ne_empty (graph : FlowGraph) : graph.freshBlockName.1 ≠ "" :=
  numbered_ne_empty _ (by decide) _

/-! ## Ends of blocks -/

/-- Instructions with what was added to end their block: nothing if they end it, else a jump to the
next block, or a return if there is none. -/
def Ends (instrs ending : List Instr) (later : List Block) : Prop :=
  (ending = [] ∧ ∃ front terminator, instrs = front ++ [terminator] ∧
    (∀ instr ∈ front, instr.isTerminator = false) ∧ terminator.isTerminator = true) ∨
  ((∀ instr ∈ instrs, instr.isTerminator = false) ∧ ∃ terminator, ending = [terminator] ∧
    terminator.action = match later with
      | next :: _ => (Instr.jmp next.name).action
      | [] => (Instr.ret none).action)

/-- What ends a block without an end of its own: a jump to the next block, or a return. -/
def missingEnd : List Block → Instr
  | next :: _ => Instr.jmp next.name
  | [] => Instr.ret none

/-- Blocks are ended from the first on: it is left as it is if it ends already, and else its end gets
a fresh key. -/
theorem terminate_cons_cases {graph after : FlowGraph} {block : Block} {rest ended : List Block}
    {changed : List String}
    (terminated : graph.terminate (block :: rest) = .ok (changed, ended, after)) :
    (block.terminator?.isSome = true ∧ ∃ others, graph.terminate rest = .ok (changed, others, after) ∧
      ended = block :: others) ∨
    (block.terminator?.isSome = false ∧ ∃ names others, graph.nextKey < keyLimit ∧
      terminate { graph with nextKey := graph.nextKey + 1 } rest = .ok (names, others, after) ∧
      changed = block.name :: names ∧
      ended = { block with instrs := block.instrs ++ [(missingEnd rest).withKey graph.nextKey] } ::
        others) := by
  unfold terminate at terminated
  split at terminated
  · rename_i hasEnd
    obtain ⟨⟨names, others, last⟩, isRest, terminated⟩ := Attempt.bind_eq_ok.1 terminated
    obtain ⟨rfl, rfl, rfl⟩ : names = changed ∧ block :: others = ended ∧ last = after := by
      simpa using terminated
    exact .inl ⟨hasEnd, others, isRest, rfl⟩
  · rename_i noEnd
    obtain ⟨⟨key, keyed⟩, isKey, terminated⟩ := Attempt.bind_eq_ok.1 terminated
    obtain ⟨⟨names, others, last⟩, isRest, terminated⟩ := Attempt.bind_eq_ok.1 terminated
    obtain ⟨rfl, rfl, rfl⟩ : block.name :: names = changed ∧ _ = ended ∧ last = after := by
      simpa using terminated
    obtain ⟨room, _⟩ := freshKey_spec isKey
    obtain ⟨rfl, rfl⟩ := freshKey_eq_ok isKey
    refine .inr ⟨Bool.not_eq_true _ ▸ noEnd, names, others, room, isRest, rfl, ?_⟩
    cases rest <;> rfl

/-- What is added to end a block: a jump or a return, with a key from a supply. -/
def Closing (nextKey : Nat) (instr : Instr) : Prop :=
  ∃ key, nextKey ≤ key ∧ key < keyLimit ∧
    ((∃ target, instr = (Instr.jmp target).withKey key) ∨ instr = (Instr.ret none).withKey key)

/-- Blocks are ended one by one, and only the supply of keys changes besides, of which one a block
is taken at most. -/
theorem terminate_eq_ok {graph after : FlowGraph} {blocks ended : List Block}
    {changed : List String} (terminated : graph.terminate blocks = .ok (changed, ended, after)) :
    List.Forall₂ (fun block last => last.name = block.name ∧ ∃ ending,
        last.instrs = block.instrs ++ ending ∧ ∀ instr ∈ ending, Closing graph.nextKey instr)
      blocks ended ∧
    ∃ nextKey, graph.nextKey ≤ nextKey ∧ nextKey ≤ graph.nextKey + blocks.length ∧
      after = { graph with nextKey } := by
  induction blocks generalizing graph changed ended with
  | nil =>
    obtain ⟨rfl, rfl, rfl⟩ : [] = changed ∧ [] = ended ∧ graph = after := by
      simpa [terminate] using terminated
    exact ⟨.nil, graph.nextKey, Nat.le_refl _, Nat.le_refl _, rfl⟩
  | cons block rest restIH =>
    rcases terminate_cons_cases terminated with ⟨_, ended, others, rfl⟩ |
      ⟨_, names, ended, small, others, _, rfl⟩
    · obtain ⟨endings, nextKey, low, few, isAfter⟩ := restIH others
      exact ⟨.cons ⟨rfl, [], (List.append_nil _).symm, nofun⟩ endings, nextKey, low,
        by rw [List.length_cons]; omega, isAfter⟩
    · obtain ⟨endings, nextKey, low, few, rfl⟩ := restIH others
      dsimp only at low few endings
      refine ⟨.cons ⟨rfl, _, rfl, ?_⟩ (endings.imp ?_), nextKey, by omega,
        by rw [List.length_cons]; omega, rfl⟩
      · intro instr member
        refine ⟨graph.nextKey, Nat.le_refl _, small, ?_⟩
        rw [List.mem_singleton.1 member]
        cases rest with
        | nil => exact .inr rfl
        | cons next later => exact .inl ⟨next.name, rfl⟩
      · rintro before last ⟨name_eq, ending, instrs_eq, closing⟩
        refine ⟨name_eq, ending, instrs_eq, fun instr member => ?_⟩
        obtain ⟨key, above, small, action⟩ := closing instr member
        exact ⟨key, by omega, small, action⟩

/-- Blocks with their ends added. -/
inductive Ended : List Block → List Block → Prop where
  /-- No block. -/
  | nil : Ended [] []
  /-- A block and those after it. -/
  | cons {block ended : Block} {blocks later : List Block} (ending : List Instr) :
      ended.name = block.name → ended.instrs = block.instrs ++ ending →
        Ends block.instrs ending later → Ended blocks later →
          Ended (block :: blocks) (ended :: later)

/-- Adding ends to blocks adds what is missing. -/
theorem ended_of_terminate {graph after : FlowGraph} {blocks ended : List Block}
    {changed : List String} (straight : ∀ block ∈ blocks, Straight block.instrs)
    (terminated : graph.terminate blocks = .ok (changed, ended, after)) :
    Ended blocks ended := by
  induction blocks generalizing graph changed ended with
  | nil =>
    obtain ⟨rfl, rfl, rfl⟩ : [] = changed ∧ [] = ended ∧ graph = after := by
      simpa [terminate] using terminated
    exact .nil
  | cons block rest restIH =>
    have straightRest : ∀ block ∈ rest, Straight block.instrs := fun other member =>
      straight other (List.mem_cons_of_mem _ member)
    obtain ⟨_, plain⟩ := straight block (List.mem_cons_self ..)
    rcases terminate_cons_cases terminated with ⟨hasEnd, ended, others, rfl⟩ |
      ⟨noEnd, names, ended, _, others, _, rfl⟩
    · refine .cons [] rfl (List.append_nil _).symm (.inl ⟨rfl, ?_⟩) (restIH straightRest others)
      obtain ⟨terminator, found⟩ := Option.isSome_iff_exists.1 hasEnd
      obtain ⟨isLast, ends⟩ := Option.filter_eq_some_iff.1 found
      obtain ⟨front, split⟩ := List.getLast?_eq_some_iff.1 isLast
      refine ⟨front, terminator, split, fun instr member => plain instr ?_, ends⟩
      rw [split, List.dropLast_concat]
      exact member
    · have endedRest := restIH straightRest others
      refine .cons [_] rfl rfl (.inr ⟨?_, _, rfl, ?_⟩) endedRest
      · -- The last instruction does not end the block, nor does any before it.
        intro instr member
        rcases List.eq_nil_or_concat block.instrs with empty | ⟨front, last, split⟩
        · rw [empty] at member
          cases member
        · rw [split, List.concat_eq_append] at member
          rcases List.mem_append.1 member with before | isLast
          · exact plain instr (by rw [split]; simpa using before)
          · obtain rfl := List.mem_singleton.1 isLast
            rw [← Bool.not_eq_true]
            intro ends
            rw [Block.terminator?_of_split (by rw [split, List.concat_eq_append]) ends] at noEnd
            cases noEnd
      · cases endedRest with
        | nil => rfl
        | cons _ name_eq => exact congrArg (fun name => (Instr.jmp name).action) name_eq.symm

/-- Ends can be added to blocks unless keys run out. -/
theorem terminate_eq_error {graph : FlowGraph} {blocks : List Block} {error : Error}
    (failed : graph.terminate blocks = .error error) :
    error = .keysExhausted ∧ keyLimit ≤ graph.nextKey + blocks.length := by
  induction blocks generalizing graph with
  | nil => cases failed
  | cons block rest restIH =>
    rw [List.length_cons]
    unfold terminate at failed
    split at failed
    · rcases Attempt.bind_eq_error.1 failed with failed | ⟨_, _, failed⟩
      · obtain ⟨exhausted, many⟩ := restIH failed
        exact ⟨exhausted, by omega⟩
      · cases failed
    · rcases graph.freshKey_cases with given | ⟨notGiven, many⟩
      · rw [given, Attempt.ok_bind] at failed
        rcases Attempt.bind_eq_error.1 failed with failed | ⟨_, _, failed⟩
        · obtain ⟨exhausted, many⟩ := restIH failed
          dsimp only at many
          exact ⟨exhausted, by omega⟩
        · cases failed
      · rw [notGiven] at failed
        exact ⟨(Except.error.inj failed).symm, by omega⟩

/-- Adding ends to the blocks of a flow graph. -/
theorem addTerminators_spec {graph after : FlowGraph} {changed : List String}
    (straight : ∀ block ∈ graph.blocks, Straight block.instrs)
    (terminated : graph.addTerminators = .ok (changed, after)) :
    ∃ ended nextKey, Ended graph.blocks ended ∧ nextKey ≤ graph.nextKey + graph.blocks.length ∧
      after = { graph with blocks := ended, nextKey } := by
  obtain ⟨⟨_, ended, last⟩, blocksTerminated, isAfter⟩ := Attempt.bind_eq_ok.1 terminated
  obtain ⟨_, rfl⟩ := Prod.mk.inj (Except.ok.inj isAfter)
  obtain ⟨_, nextKey, _, few, rfl⟩ := terminate_eq_ok blocksTerminated
  exact ⟨ended, nextKey, ended_of_terminate straight blocksTerminated, few, rfl⟩

/-- Where blocks lead after their ends were added: where they led, or to a later block. -/
theorem Ended.successors {blocks ended : List Block} (areEnded : Ended blocks ended)
    {block : Block} (member : block ∈ ended) {target : String} (leads : target ∈ block.successors) :
    (∃ before ∈ blocks, target ∈ before.successors) ∨ target ∈ ended.tail.map Block.name := by
  induction areEnded with
  | nil => cases member
  | @cons first firstEnded blocks later ending name_eq instrs_eq ends areEnded restIH =>
    rcases List.mem_cons.1 member with rfl | inRest
    · rcases ends with ⟨rfl, _⟩ | ⟨plain, terminator, rfl, action⟩
      · refine .inl ⟨first, List.mem_cons_self .., ?_⟩
        rw [List.append_nil] at instrs_eq
        rwa [Block.successors, Block.terminator?, instrs_eq] at leads
      · right
        cases later with
        | nil =>
          rw [Block.successors, Block.terminator?_of_split instrs_eq (by
            rw [Instr.isTerminator, Instr.op?, action]; rfl)] at leads
          simp [Instr.op?, action, Instr.ret, Instr.effect, Action.op?] at leads
        | cons next later =>
          rw [Block.successors, Block.terminator?_of_split instrs_eq (by
            rw [Instr.isTerminator, Instr.op?, action]; rfl)] at leads
          simp [Instr.op?, action, Instr.jmp, Instr.effect, Action.op?, Instr.labels,
            Action.operands] at leads
          rw [leads]
          exact List.mem_cons_self ..
    · rcases restIH inRest with ⟨before, inBlocks, leads⟩ | later
      · exact .inl ⟨before, List.mem_cons_of_mem _ inBlocks, leads⟩
      · exact .inr (by rw [List.tail_cons]; exact List.mem_of_mem_tail (by simpa using later))

/-- Blocks keep their names when their ends are added. -/
theorem Ended.map_name {blocks ended : List Block} (areEnded : Ended blocks ended) :
    ended.map Block.name = blocks.map Block.name := by
  induction areEnded with
  | nil => rfl
  | cons _ name_eq _ _ _ restIH => rw [List.map_cons, List.map_cons, name_eq, restIH]

/-- A block with its end added is well-formed, if it is made of well-formed instructions without
labels, and merges come first. -/
theorem Ended.wellFormed {blocks ended : List Block} (areEnded : Ended blocks ended)
    (checked : ∀ block ∈ blocks, ∀ instr ∈ block.instrs, instr.Checked)
    (unlabelled : ∀ block ∈ blocks, ∀ instr ∈ block.instrs, instr.isLabel = false)
    (leading : ∀ block ∈ ended, ∀ instr ∈ block.body, instr.isPhi = false) :
    ∀ block ∈ ended, block.WellFormed := by
  induction areEnded with
  | nil => simp
  | @cons first firstEnded blocks later ending name_eq instrs_eq ends areEnded restIH =>
    intro block member
    rcases List.mem_cons.1 member with rfl | inRest
    · have first_mem := List.mem_cons_self (a := first) (l := blocks)
      have inFront := leading block member
      rcases ends with ⟨rfl, split⟩ | ⟨plain, terminator, rfl, action⟩
      · rw [List.append_nil] at instrs_eq
        exact ⟨by rw [instrs_eq]; exact split, by rw [instrs_eq]; exact checked _ first_mem,
          by rw [instrs_eq]; exact unlabelled _ first_mem, inFront⟩
      · -- The instruction that was added is a jump or a return.
        have added : terminator.isTerminator = true ∧ terminator.Checked ∧
            terminator.isLabel = false := by
          cases later <;> simp only at action <;>
            refine ⟨by rw [Instr.isTerminator, Instr.op?, action]; rfl,
              (Instr.checked_effect_iff action).2 ⟨rfl, ?_, ?_⟩,
              by rw [Instr.isLabel, action]; rfl⟩ <;>
            first
              | exact Instr.checkOperands_eq_ok_iff.1 rfl
              | simp
        have cases' : ∀ {holds : Instr → Prop}, (∀ instr ∈ first.instrs, holds instr) →
            holds terminator → ∀ instr ∈ block.instrs, holds instr := by
          intro holds before last instr inside
          rw [instrs_eq] at inside
          rcases List.mem_append.1 inside with inFront | isLast
          · exact before instr inFront
          · rw [List.mem_singleton.1 isLast]
            exact last
        exact ⟨⟨first.instrs, terminator, instrs_eq, plain, added.1⟩,
          cases' (checked _ first_mem) added.2.1, cases' (unlabelled _ first_mem) added.2.2, inFront⟩
    · exact restIH (fun block inside => checked block (List.mem_cons_of_mem _ inside))
        (fun block inside => unlabelled block (List.mem_cons_of_mem _ inside))
        (fun block inside => leading block (List.mem_cons_of_mem _ inside)) block inRest

/-! ## Code over blocks -/

/-- Flat code over the blocks that it was cut into, with their ends added. -/
inductive Laid : List Instr → List Block → Prop where
  /-- No code over no block. -/
  | nil : Laid [] []
  /-- The code of a block, possibly with its label, and the code of later blocks. -/
  | cons {opening instrs ending code : List Instr} {block : Block} {later : List Block} :
      opening = [] ∨ Opens (some block.name) opening → (∀ instr ∈ instrs, instr.isLabel = false) →
        block.instrs = instrs ++ ending → Ends instrs ending later → Laid code later →
          Laid (opening ++ (instrs ++ code)) (block :: later)

/-- Code that is cut into segments lies over the blocks that they become. -/
theorem laid_of_segmented {segments : List Segment} {code : List Instr} {blocks ended : List Block}
    (segmented : Segmented segments code) (named : List.Forall₂ Named segments blocks)
    (areEnded : Ended blocks ended) : Laid code ended := by
  induction segmented generalizing blocks ended with
  | nil =>
    cases named
    cases areEnded
    exact .nil
  | cons segment opening opens straight _ restIH =>
    cases named with
    | cons isNamed restNamed =>
      cases areEnded with
      | cons ending name_eq instrs_eq ends restEnded =>
        rw [isNamed.1] at instrs_eq ends
        refine .cons ?_ straight.unlabelled instrs_eq ends (restIH restNamed restEnded)
        cases isLabel : segment.1 with
        | none =>
          rw [isLabel] at opens
          exact .inl opens
        | some name =>
          rw [isLabel] at opens
          rw [name_eq, isNamed.2 name isLabel]
          exact .inr opens

/-- Where a label is found, the code of the block of that name starts. -/
theorem Laid.exists_of_seek {code target : List Instr} {blocks : List Block} {label : String}
    (laid : Laid code blocks) (sought : seek label code = some target) :
    ∃ block later, Laid target (block :: later) ∧ block.name = label ∧
      (block :: later) <:+ blocks := by
  induction laid with
  | nil => cases sought
  | @cons opening instrs ending code block later opens unlabelled instrs_eq ends laid restIH =>
    -- The label is in front of this block, or the code of a later one starts there.
    have cases' : seek label code = some target ∨
        (target = opening ++ (instrs ++ code) ∧ block.name = label) := by
      rcases opens with rfl | ⟨instr, rfl, isLabel⟩
      · rw [List.nil_append, seek_append_of_unlabelled _ unlabelled] at sought
        exact .inl sought
      · rw [List.singleton_append, seek, seek_append_of_unlabelled _ unlabelled] at sought
        split at sought
        · rename_i found
          exact .inl (by rw [found, Option.some.inj sought])
        · split at sought
          · rename_i isTarget
            rw [isLabel] at isTarget
            exact .inr ⟨(Option.some.inj sought).symm, Action.label.inj isTarget⟩
          · cases sought
    rcases cases' with inRest | ⟨rfl, isName⟩
    · obtain ⟨found, further, laid', name_eq, suffix⟩ := restIH inRest
      exact ⟨found, further, laid', name_eq, suffix.trans (List.suffix_cons ..)⟩
    · exact ⟨block, later, .cons opens unlabelled instrs_eq ends laid, isName, List.suffix_rfl⟩

/-- A flat run passes the label in front of a block. -/
theorem exists_of_runFrom_opening {machine : Machine} {calls : Calls} {code rest : List Instr}
    {opening : List Instr} {name : String} (opens : opening = [] ∨ Opens (some name) opening)
    {fuel : Nat} {current previous : Option String} {state : State} {answer : Answer}
    (ran : Func.runFrom machine calls code fuel (opening ++ rest) current previous state =
      some answer) :
    ∃ less current previous, less ≤ fuel ∧
      Func.runFrom machine calls code less rest current previous state = some answer := by
  rcases opens with rfl | ⟨label, rfl, isLabel⟩
  · exact ⟨fuel, current, previous, Nat.le_refl _, ran⟩
  · cases fuel with
    | zero => cases ran
    | succ fuel =>
      rw [List.singleton_append, Func.runFrom_label isLabel] at ran
      exact ⟨fuel, some name, current, by omega, ran⟩

/-- What a flat run does from the start of a block's code on: it runs the block, and then it jumps,
returns, or falls through to the next block. -/
theorem Laid.exists_step {machine : Machine} {calls : Calls} {code rest : List Instr} {fuel : Nat}
    {block : Block} {later : List Block} (laid : Laid rest (block :: later))
    (unmerged : ∀ instr ∈ block.instrs, instr.isPhi = false)
    {current previous : Option String} {state : State} {answer : Answer}
    (ran : Func.runFrom machine calls code fuel rest current previous state = some answer) :
    ∃ next control,
      Instr.execAll machine calls block.instrs state = some (next, control) ∧
      ((∃ label target less current previous, control = .jump label ∧
          seek label code = some target ∧ less < fuel ∧
          Func.runFrom machine calls code less target current previous next = some answer) ∨
        (∃ value, control = .halt value ∧ answer = ⟨next.lines, value⟩) ∨
        ∃ onward further rest less current previous, later = onward :: further ∧
          control = .jump onward.name ∧ Laid rest later ∧ less ≤ fuel ∧
          Func.runFrom machine calls code less rest current previous next = some answer) := by
  cases laid with
  | @cons opening instrs ending tail _ _ opens unlabelled instrs_eq ends laid =>
    obtain ⟨less, current, previous, bound, ran⟩ := exists_of_runFrom_opening opens ran
    have inBlock : ∀ instr ∈ instrs, instr ∈ block.instrs := fun instr member => by
      rw [instrs_eq]
      exact List.mem_append_left _ member
    have plainly : ∀ instr ∈ instrs, instr.isLabel = false ∧ instr.isPhi = false :=
      fun instr member => ⟨unlabelled instr member, unmerged instr (inBlock instr member)⟩
    rcases ends with ⟨rfl, front, terminator, rfl, straight, isEnd⟩ | ⟨straight, terminator, rfl, action⟩
    · -- The code ends the block itself.
      rw [List.append_assoc] at ran
      obtain ⟨between, fewer, frontRan, fewerBound, ran⟩ := Func.exists_of_runFrom_append
        (fun instr member => plainly instr (List.mem_append_left _ member)) straight ran
      cases fewer with
      | zero => cases ran
      | succ fewer =>
        obtain ⟨notLabel, notPhi⟩ := plainly terminator (by simp)
        rw [List.singleton_append, Func.runFrom_plain notLabel notPhi] at ran
        obtain ⟨⟨next, control⟩, last, ran⟩ := Option.bind_eq_some_iff.1 ran
        refine ⟨next, control, ?_, ?_⟩
        · rw [instrs_eq, List.append_nil, Instr.execAll_concat_iff straight]
          exact ⟨between, frontRan, last⟩
        · cases control with
          | next => exact absurd rfl (Instr.control_ne_next isEnd last)
          | jump label =>
            obtain ⟨target, sought, ran⟩ := Option.bind_eq_some_iff.1 ran
            exact .inl ⟨label, target, fewer, current, previous, rfl, sought, by omega, ran⟩
          | halt value => exact .inr (.inl ⟨value, rfl, (Option.some.inj ran).symm⟩)
    · -- The end was added.
      obtain ⟨between, fewer, allRan, fewerBound, ran⟩ :=
        Func.exists_of_runFrom_append plainly straight ran
      cases later with
      | nil =>
        cases laid
        refine ⟨between, .halt none, ?_, .inr (.inl ⟨none, rfl, ?_⟩)⟩
        · rw [instrs_eq, Instr.execAll_concat_iff straight]
          exact ⟨between, allRan, Instr.exec_of_ret action between⟩
        · cases fewer with
          | zero => cases ran
          | succ fewer => exact (Option.some.inj ran).symm
      | cons onward further =>
        refine ⟨between, .jump onward.name, ?_, .inr (.inr ?_)⟩
        · rw [instrs_eq, Instr.execAll_concat_iff straight]
          exact ⟨between, allRan, Instr.exec_of_jmp action between⟩
        · exact ⟨onward, further, tail, fewer, current, previous, rfl, rfl, laid, by omega, ran⟩

/-- A flat run from the start of a block's code on is a run of the flow graph from that block on.
The induction is on the fuel, and on the later blocks where the run falls through to the next one
without using any. -/
theorem Laid.exists_runFrom {machine : Machine} {calls : Calls} {graph : FlowGraph}
    (wellFormed : graph.WellFormed) {code : List Instr} {blocks : List Block}
    (whole : Laid code blocks) (inGraph : ∀ block ∈ blocks, block ∈ graph.blocks)
    (unmerged : ∀ block ∈ blocks, ∀ instr ∈ block.instrs, instr.isPhi = false)
    (fuel : Nat) {rest : List Instr} {block : Block} {later : List Block}
    (laid : Laid rest (block :: later)) (suffix : (block :: later) <:+ blocks)
    {current previous : Option String} {state : State} {answer : Answer}
    (ran : Func.runFrom machine calls code fuel rest current previous state = some answer) :
    ∃ more, ∀ source, graph.runFrom machine calls more block source state = some answer := by
  -- A block that runs and then jumps to a block from where the run is known.
  have onwards : ∀ {block onward : Block} {state next : State}, block ∈ blocks → onward ∈ blocks →
      Instr.execAll machine calls block.instrs state = some (next, .jump onward.name) →
      (∃ more, ∀ source, graph.runFrom machine calls more onward source next = some answer) →
      ∃ more, ∀ source, graph.runFrom machine calls more block source state = some answer := by
    rintro block onward state next member onwardMember step ⟨more, ran⟩
    refine ⟨more + 1, fun source => ?_⟩
    have found := (find?_eq_some_iff wellFormed.nodup_names).2 ⟨inGraph _ onwardMember, rfl⟩
    rw [FlowGraph.runFrom, Block.exec_of_unmerged (unmerged block member), step]
    simp only [Option.bind_eq_bind, Option.bind_some, found]
    exact ran (some block.name)
  induction fuel using Nat.strong_induction_on generalizing rest block later current previous state
    with
  | h fuel fuelIH =>
    -- One block, given what comes of falling through to the next one.
    have fromBlock : ∀ {rest : List Instr} {block : Block} {later : List Block}
        {current previous : Option String} {state : State}, Laid rest (block :: later) →
        (block :: later) <:+ blocks →
        Func.runFrom machine calls code fuel rest current previous state = some answer →
        (∀ {onward : Block} {further : List Block} {rest : List Instr} {less : Nat}
          {current previous : Option String} {next : State}, later = onward :: further →
          Laid rest later → less ≤ fuel →
          Func.runFrom machine calls code less rest current previous next = some answer →
          ∃ more, ∀ source, graph.runFrom machine calls more onward source next = some answer) →
        ∃ more, ∀ source, graph.runFrom machine calls more block source state = some answer := by
      intro rest block later current previous state laid suffix ran fallsThrough
      have member : block ∈ blocks := suffix.subset (List.mem_cons_self ..)
      obtain ⟨next, control, step, ⟨label, target, less, current, previous, rfl, sought, bound, ran⟩ |
        ⟨value, rfl, rfl⟩ |
        ⟨onward, further, rest, less, current, previous, same, rfl, laid, bound, ran⟩⟩ :=
          laid.exists_step (unmerged block member) ran
      · obtain ⟨onward, further, laid', rfl, suffix'⟩ := whole.exists_of_seek sought
        exact onwards member (suffix'.subset (List.mem_cons_self ..)) step
          (fuelIH less bound laid' suffix' ran)
      · refine ⟨1, fun source => ?_⟩
        rw [FlowGraph.runFrom, Block.exec_of_unmerged (unmerged block member), step]
        rfl
      · have onwardMember : onward ∈ blocks := suffix.subset (by rw [same]; simp)
        exact onwards member onwardMember step (fallsThrough same laid bound ran)
    induction later generalizing rest block current previous state with
    | nil =>
      refine fromBlock laid suffix ran ?_
      intro onward further rest less current previous next impossible
      cases impossible
    | cons following later laterIH =>
      refine fromBlock laid suffix ran ?_
      rintro onward further rest less current previous next same laid bound onwardRan
      obtain ⟨rfl, rfl⟩ := List.cons.inj same
      have suffix := (List.suffix_cons block (following :: later)).trans suffix
      by_cases shorter : less < fuel
      · exact fuelIH less shorter laid suffix onwardRan
      · obtain rfl : less = fuel := by omega
        exact laterIH laid suffix onwardRan

/-! ## The whole construction -/

/-- The check of the labels of merges is what it says. -/
theorem checkPhiLabels_eq_ok_iff {graph : FlowGraph} : graph.checkPhiLabels = .ok () ↔
    ∀ block ∈ graph.blocks, ∀ phi ∈ block.instrs, phi.isPhi = true →
      ∀ label ∈ phi.labels, label ∈ graph.names := by
  have atPhi : ∀ (block : Block) (phi : Instr),
      (match phi.labels.find? fun label => !graph.hasBlock label with
        | some missing => Except.error (Error.malformed ("Phi in block '" ++ block.name ++ "' of '" ++
            graph.name ++ "' names unknown block '" ++ missing ++ "'"))
        | none => .ok ()) = .ok () ↔ ∀ label ∈ phi.labels, label ∈ graph.names := by
    intro block phi
    have unknown : (phi.labels.find? fun label => !graph.hasBlock label) = none ↔
        ∀ label ∈ phi.labels, label ∈ graph.names := by
      simp [List.find?_eq_none, hasBlock_iff]
    rw [← unknown]
    cases phi.labels.find? fun label => !graph.hasBlock label <;> simp
  rw [checkPhiLabels, Attempt.forM_eq_ok]
  refine forall₂_congr fun block _ => ?_
  rw [Attempt.forM_eq_ok]
  simp only [List.mem_filter, and_imp]
  exact forall₃_congr fun phi _ _ => atPhi block phi

/-- Where there are no merges, none names a block that is not there. -/
theorem checkPhiLabels_of_unmerged (graph : FlowGraph)
    (unmerged : ∀ block ∈ graph.blocks, ∀ instr ∈ block.instrs, instr.isPhi = false) :
    graph.checkPhiLabels = .ok () := by
  refine checkPhiLabels_eq_ok_iff.2 fun block member phi inside isPhi => ?_
  rw [unmerged block member phi inside] at isPhi
  cases isPhi

/-- Adding an entry either changes nothing, because nothing leads to the first block, or puts a block
with a new name in front that jumps to it, because something does. -/
theorem addEntry_cases {graph after : FlowGraph} {entry : Option String}
    (added : graph.addEntry = .ok (entry, after)) :
    (after = graph ∧ ∀ block ∈ graph.blocks, graph.entryName ∉ block.successors) ∨
    ∃ name nextBlock, name ∉ graph.names ∧ name ≠ "" ∧ graph.nextKey < keyLimit ∧
      (∃ block ∈ graph.blocks, graph.entryName ∈ block.successors) ∧
      after = { graph with
        blocks := ⟨name, [(Instr.jmp graph.entryName).withKey graph.nextKey]⟩ :: graph.blocks,
        nextKey := graph.nextKey + 1, nextBlock } := by
  unfold addEntry at added
  split at added
  · rename_i empty
    obtain ⟨_, rfl⟩ := Prod.mk.inj (Except.ok.inj added)
    exact .inl ⟨rfl, by simp [empty]⟩
  · rename_i first rest isBlocks
    have isEntry : graph.entryName = first.name := by rw [entryName, isBlocks]
    split at added
    · rename_i unreached
      obtain ⟨_, rfl⟩ := Prod.mk.inj (Except.ok.inj added)
      refine .inl ⟨rfl, fun block member leads => ?_⟩
      rw [isEntry] at leads
      have source := mem_predecessorsOf.2 ⟨block, member, rfl, leads⟩
      rw [List.isEmpty_iff.1 unreached] at source
      cases source
    · rename_i reached
      obtain ⟨source, isSource⟩ := List.exists_mem_of_ne_nil _ (mt List.isEmpty_iff.2 reached)
      obtain ⟨block, member, _, leads⟩ := mem_predecessorsOf.1 isSource
      dsimp only at added
      -- Either way the name is new, and only the supply of names is changed.
      obtain ⟨name, nextBlock, named, fresh, notEmpty⟩ : ∃ name nextBlock,
          (if graph.hasBlock (graph.name ++ "_entry") = true then graph.freshBlockName
            else (graph.name ++ "_entry", graph)) = (name, { graph with nextBlock }) ∧
          name ∉ graph.names ∧ name ≠ "" := by
        split
        · exact ⟨_, _, rfl, freshBlockName_notMem graph, freshBlockName_ne_empty graph⟩
        · rename_i free
          refine ⟨_, graph.nextBlock, rfl, by rwa [hasBlock_iff] at free, fun empty => ?_⟩
          rw [String.append_eq_empty_iff] at empty
          exact absurd empty.2 (by decide)
      rw [named] at added
      obtain ⟨⟨key, keyed⟩, isKey, added⟩ := Attempt.bind_eq_ok.1 added
      obtain ⟨_, rfl⟩ := Prod.mk.inj (Except.ok.inj added)
      have small := (freshKey_spec isKey).1
      obtain ⟨rfl, rfl⟩ := freshKey_eq_ok isKey
      exact .inr ⟨name, nextBlock, fresh, notEmpty, small, ⟨block, member, by rwa [isEntry]⟩,
        by rw [isEntry]⟩

/-- An entry can be added unless keys run out. -/
theorem addEntry_eq_error {graph : FlowGraph} {error : Error}
    (failed : graph.addEntry = .error error) :
    error = .keysExhausted ∧ keyLimit ≤ graph.nextKey + 1 := by
  unfold addEntry at failed
  split at failed
  · cases failed
  · split at failed
    · cases failed
    · rename_i first _ _ _
      have changed : ∀ name nextBlock, ((do
          let fresh ← ({ graph with nextBlock } : FlowGraph).freshKey
          let entry : Block := ⟨name, [(Instr.jmp first.name).withKey fresh.1]⟩
          return (some name, { fresh.2 with blocks := entry :: fresh.2.blocks })) :
            Except Error (Option String × FlowGraph)) = .error error →
          error = .keysExhausted ∧ keyLimit ≤ graph.nextKey + 1 := by
        intro name nextBlock failed
        rcases ({ graph with nextBlock } : FlowGraph).freshKey_cases with given | ⟨notGiven, many⟩
        · rw [given] at failed
          cases failed
        · rw [notGiven] at failed
          exact ⟨(Except.error.inj failed).symm, many⟩
      dsimp only at failed
      split at failed
      · exact changed _ _ failed
      · exact changed _ graph.nextBlock failed

/-- The ends that are added are the last instructions of their blocks, and all others stay. -/
theorem Ended.mem_instrs {blocks ended : List Block} (areEnded : Ended blocks ended) {block : Block}
    (member : block ∈ ended) {instr : Instr} (inside : instr ∈ block.instrs) :
    (∃ before ∈ blocks, instr ∈ before.instrs) ∨ (∃ target, instr.action = (Instr.jmp target).action) ∨
      instr.action = (Instr.ret none).action := by
  induction areEnded with
  | nil => cases member
  | @cons first firstEnded blocks later ending name_eq instrs_eq ends areEnded restIH =>
    rcases List.mem_cons.1 member with rfl | inRest
    · rw [instrs_eq] at inside
      rcases List.mem_append.1 inside with before | added
      · exact .inl ⟨first, List.mem_cons_self .., before⟩
      · rcases ends with ⟨rfl, _⟩ | ⟨_, terminator, rfl, action⟩
        · cases added
        · rw [List.mem_singleton.1 added]
          cases later with
          | nil => exact .inr (.inr action)
          | cons next later => exact .inr (.inl ⟨next.name, action⟩)
    · rcases restIH inRest with ⟨before, inBlocks, inside⟩ | added
      · exact .inl ⟨before, List.mem_cons_of_mem _ inBlocks, inside⟩
      · exact .inr added

/-- Blocks of straight code with names of their own, whose ends lead to blocks but not to the first
one, make up a well-formed flow graph when their ends are added, if merges come first. -/
theorem wellFormed_of_ended {graph after : FlowGraph} (areEnded : Ended graph.blocks after.blocks)
    (params_eq : after.params = graph.params) (nonempty : graph.blocks ≠ [])
    (nodup : graph.names.Nodup) (nodupParams : graph.paramNames.Nodup)
    (straight : ∀ block ∈ graph.blocks, Straight block.instrs)
    (checked : ∀ block ∈ graph.blocks, ∀ instr ∈ block.instrs, instr.Checked)
    (targets : ∀ block ∈ graph.blocks, ∀ target ∈ block.successors, target ∈ graph.names)
    (entry : ∀ block ∈ graph.blocks, graph.entryName ∉ block.successors)
    (leading : ∀ block ∈ after.blocks, ∀ instr ∈ block.body, instr.isPhi = false) :
    after.WellFormed := by
  have names_eq : after.names = graph.names := areEnded.map_name
  have entry_eq : after.entryName = graph.entryName := by
    have same := areEnded.map_name
    unfold entryName
    revert same nonempty
    cases graph.blocks with
    | nil => exact fun impossible => absurd rfl impossible
    | cons first rest =>
      cases after.blocks with
      | nil => exact fun _ impossible => by cases impossible
      | cons ended later => exact fun _ same => (List.cons.inj same).1
  refine ⟨?_, by rwa [names_eq], areEnded.wellFormed checked
    (fun block member => (straight block member).unlabelled) leading, ?_, ?_, ?_⟩
  · intro empty
    have same := areEnded.map_name
    rw [empty] at same
    exact nonempty (List.map_eq_nil_iff.1 same.symm)
  · intro block member target leads
    rcases areEnded.successors member leads with ⟨before, inBlocks, leads⟩ | later
    · rw [names_eq]
      exact targets before inBlocks target leads
    · exact List.map_subset _ (List.tail_subset _) later
  · intro block member leads
    rcases areEnded.successors member leads with ⟨before, inBlocks, leads⟩ | later
    · rw [entry_eq] at leads
      exact entry before inBlocks leads
    · -- A jump that was added leads to a later block, and the entry is the first one.
      rw [← names_eq] at nodup
      unfold names at nodup
      unfold entryName at later
      revert nodup later
      cases after.blocks with
      | nil => exact fun _ impossible => by cases impossible
      | cons first rest => exact fun nodup later => (List.nodup_cons.1 nodup).1 later
  · rw [paramNames, params_eq]
    exact nodupParams

/-- A flow graph that has the code of a function: its instructions are those of the function and the
jumps and returns that were added. It is well-formed if merges come first, and without merges it
yields what the function yields. -/
structure BuiltFrom (function : Func) (graph : FlowGraph) : Prop where
  /-- The function is well-formed. -/
  checked : function.Checked
  /-- The flow graph has the name of the function. -/
  name_eq : graph.name = function.name
  /-- It has the parameters of the function. -/
  params_eq : graph.params = function.params
  /-- Instructions are those of the function, jumps and returns. -/
  mem_instrs : ∀ block ∈ graph.blocks, ∀ instr ∈ block.instrs, instr ∈ function.instrs ∨
    (∃ target, instr.action = (Instr.jmp target).action) ∨
      instr.action = (Instr.ret none).action
  /-- It is well-formed if merges come first. -/
  wellFormed : (∀ block ∈ graph.blocks, ∀ instr ∈ block.body, instr.isPhi = false) →
    graph.WellFormed
  /-- Without merges it yields what the function yields. -/
  yields : (∀ instr ∈ function.instrs, instr.isPhi = false) →
    ∀ {machine : Machine} {calls : Calls} {args : List Value} {answer : Answer},
      function.Yields machine calls args answer → graph.Yields machine calls args answer
  /-- Blocks start with an instruction of the function, but for two at most. -/
  length_blocks : graph.blocks.length ≤ function.instrs.length + 2
  /-- One instruction a block is added at most, and one before the first block. -/
  length_instrs : graph.instrs.length ≤ 2 * function.instrs.length + 3
  /-- One key a block is taken at most, and one before the first block. -/
  nextKey_le : graph.nextKey ≤ function.maxKey + function.instrs.length + 4

/-- A flow graph has merges only where its function has some. -/
theorem unmerged_of_mem_instrs {function : Func} {blocks : List Block}
    (unmerged : ∀ instr ∈ function.instrs, instr.isPhi = false)
    (mem_instrs : ∀ block ∈ blocks, ∀ instr ∈ block.instrs, instr ∈ function.instrs ∨
      (∃ target, instr.action = (Instr.jmp target).action) ∨
        instr.action = (Instr.ret none).action) :
    ∀ block ∈ blocks, ∀ instr ∈ block.instrs, instr.isPhi = false := by
  intro block member instr inside
  rcases mem_instrs block member instr inside with inFunction | ⟨_, action⟩ | action
  · exact unmerged instr inFunction
  · rw [Instr.isPhi, action]
    rfl
  · rw [Instr.isPhi, action]
    rfl

/-- The flow graph of a function without merges is well-formed and has none. -/
theorem BuiltFrom.of_unmerged {function : Func} {graph : FlowGraph}
    (built : BuiltFrom function graph)
    (unmerged : ∀ instr ∈ function.instrs, instr.isPhi = false) :
    graph.WellFormed ∧ ∀ block ∈ graph.blocks, ∀ instr ∈ block.instrs, instr.isPhi = false := by
  have none := unmerged_of_mem_instrs unmerged built.mem_instrs
  exact ⟨built.wellFormed fun block member instr inBody =>
    none block member instr (Block.mem_of_mem_body inBody), none⟩

/-- There is one segment more than there are instructions at most. -/
theorem length_cut_le (code : List Instr) : (cut code).length ≤ code.length + 1 := by
  rw [cut_eq, List.length_map, stretches]
  split
  · simp
  · have nonempty : ∀ length ∈ (code.splitBy mayFollow).map List.length, 1 ≤ length := by
      intro length member
      obtain ⟨piece, isPiece, rfl⟩ := List.mem_map.1 member
      exact List.length_pos_of_ne_nil (List.ne_nil_of_mem_splitBy isPiece)
    have few := List.length_le_sum_of_one_le _ nonempty
    rw [List.length_map, ← List.length_flatten, List.flatten_splitBy] at few
    omega

/-- Segments have no more instructions than the code that they make up. -/
theorem Segmented.length_le {segments : List Segment} {code : List Instr}
    (segmented : Segmented segments code) :
    (segments.flatMap Prod.snd).length ≤ code.length := by
  induction segmented with
  | nil => exact Nat.le_refl _
  | cons segment opening _ _ _ restIH =>
    rw [List.flatMap_cons, List.length_append, List.length_append, List.length_append]
    omega

/-- Blocks have the instructions of the segments that they were. -/
theorem flatMap_instrs_of_named {segments : List Segment} {blocks : List Block}
    (named : List.Forall₂ Named segments blocks) :
    blocks.flatMap Block.instrs = segments.flatMap Prod.snd := by
  induction named with
  | nil => rfl
  | cons isNamed _ restIH => rw [List.flatMap_cons, List.flatMap_cons, restIH, isNamed.1]

/-- One instruction a block is added at most when ends are added. -/
theorem Ended.length_le {blocks ended : List Block} (areEnded : Ended blocks ended) :
    ended.length = blocks.length ∧
      (ended.flatMap Block.instrs).length ≤
        (blocks.flatMap Block.instrs).length + blocks.length := by
  induction areEnded with
  | nil => exact ⟨rfl, Nat.le_refl _⟩
  | @cons block ended blocks later ending _ instrs_eq ends _ restIH =>
    have short : ending.length ≤ 1 := by
      rcases ends with ⟨rfl, _⟩ | ⟨_, terminator, rfl, _⟩ <;> simp
    rw [List.flatMap_cons, List.flatMap_cons, instrs_eq]
    simp only [List.length_cons, List.length_append]
    exact ⟨by omega, by omega⟩

/-- What cutting up a function makes of it. -/
theorem ofSegments_eq_ok {function : Func} {graph : FlowGraph}
    (cutUp : ofSegments function = .ok graph) :
    ∃ nextBlock, graph =
      { name := function.name, params := function.params, returnType := function.returnType,
        pos := function.pos,
        blocks := (nameSegments function.name ((cut function.instrs).filterMap Prod.fst) 0
          (cut function.instrs)).1,
        nextKey := function.maxKey + 1, nextBlock } := by
  unfold ofSegments at cutUp
  dsimp only at cutUp
  split at cutUp
  · cases cutUp
  · exact ⟨_, (Except.ok.inj cutUp).symm⟩

/-- The blocks of a well-formed function as they are written. -/
structure Written (function : Func) (graph : FlowGraph) : Prop where
  /-- The function is well-formed. -/
  checked : function.Checked
  /-- The flow graph has the name of the function. -/
  name_eq : graph.name = function.name
  /-- It has the parameters of the function. -/
  params_eq : graph.params = function.params
  /-- There is a block. -/
  nonempty : graph.blocks ≠ []
  /-- Blocks have names of their own. -/
  nodup_names : graph.names.Nodup
  /-- The blocks are what the code was cut into. -/
  exists_segments : ∃ segments, Segmented segments function.instrs ∧
    List.Forall₂ Named segments graph.blocks
  /-- Blocks hold instructions of the function. -/
  straight : ∀ block ∈ graph.blocks, Straight block.instrs ∧
    ∀ instr ∈ block.instrs, instr ∈ function.instrs
  /-- Labels are names of blocks. -/
  label_mem : ∀ label ∈ Func.labelNames function.instrs, label ∈ graph.names
  /-- There is one block more than there are instructions at most. -/
  length_blocks : graph.blocks.length ≤ function.instrs.length + 1
  /-- Keys start behind those of the function. -/
  nextKey_eq : graph.nextKey = function.maxKey + 1

namespace Written

variable {function : Func} {graph : FlowGraph}

/-- Cutting up a well-formed function. -/
theorem of_ofSegments (checked : function.Checked) (cutUp : ofSegments function = .ok graph) :
    Written function graph := by
  have segmented := segmented_cut function.instrs
  have labels := segmented.labelNames
  have named := (forall₂_nameSegments function.name ((cut function.instrs).filterMap Prod.fst)
    (cut function.instrs) 0).imp fun _ _ facts => facts.1
  have nodup := @nodup_nameSegments function.name _ (cut function.instrs) 0 (fun _ member => member)
    (labels ▸ checked.nodup_labels)
  obtain ⟨_, rfl⟩ := ofSegments_eq_ok cutUp
  refine ⟨checked, rfl, rfl, ?_, nodup, ⟨_, segmented, named⟩, ?_, ?_, ?_, rfl⟩
  · intro empty
    have lengths := named.length_eq
    rw [show (nameSegments _ _ _ _).1 = [] from empty] at lengths
    exact cut_ne_nil function.instrs (List.eq_nil_of_length_eq_zero lengths)
  · intro block member
    obtain ⟨segment, inside, isNamed, _⟩ := exists_of_forall₂_right named member
    rw [isNamed]
    exact segmented.mem inside
  · intro label member
    rw [labels] at member
    obtain ⟨segment, inside, isLabel⟩ := List.mem_filterMap.1 member
    obtain ⟨block, blockMember, isNamed⟩ := exists_of_forall₂_left named inside
    exact List.mem_map.2 ⟨block, blockMember, isNamed.2 label isLabel⟩
  · exact named.length_eq ▸ length_cut_le function.instrs

/-- Blocks have no more instructions than the function. -/
theorem length_instrs (written : Written function graph) :
    (graph.blocks.flatMap Block.instrs).length ≤ function.instrs.length := by
  obtain ⟨segments, segmented, named⟩ := written.exists_segments
  rw [flatMap_instrs_of_named named]
  exact segmented.length_le

/-- Blocks lead to blocks. -/
theorem target_mem (written : Written function graph) : ∀ block ∈ graph.blocks,
    ∀ target ∈ block.successors, target ∈ graph.names := by
  intro block member target leads
  unfold Block.successors at leads
  split at leads
  · rename_i terminator found
    obtain ⟨isLast, ends⟩ := Option.filter_eq_some_iff.1 found
    have inFunction := (written.straight block member).2 terminator (List.mem_of_getLast? isLast)
    refine written.label_mem target
      (written.checked.target_mem terminator inFunction ends target ?_)
    split at leads
    · exact List.mem_eraseDups.1 leads
    · exact List.mem_eraseDups.1 leads
    · cases leads
  · cases leads

/-- Ends that are added to the blocks keep the run of the function. -/
theorem exists_runFrom (written : Written function graph) {other : FlowGraph} {ended : List Block}
    (wellFormed : other.WellFormed) (areEnded : Ended graph.blocks ended)
    (inOther : ∀ block ∈ ended, block ∈ other.blocks)
    (unmerged : ∀ block ∈ ended, ∀ instr ∈ block.instrs, instr.isPhi = false)
    {machine : Machine} {calls : Calls} {fuel : Nat} {state : State} {answer : Answer}
    (ran : Func.runFrom machine calls function.instrs fuel function.instrs none none state =
      some answer) :
    ∃ first rest, ended = first :: rest ∧ first.name = graph.entryName ∧
      ∃ more, ∀ source, other.runFrom machine calls more first source state = some answer := by
  obtain ⟨segments, segmented, named⟩ := written.exists_segments
  have laid := laid_of_segmented segmented named areEnded
  have names := areEnded.map_name
  cases ended with
  | nil => exact absurd (List.map_eq_nil_iff.1 names.symm) written.nonempty
  | cons first rest =>
    refine ⟨first, rest, rfl, ?_, laid.exists_runFrom wellFormed inOther unmerged fuel laid
      List.suffix_rfl ran⟩
    unfold entryName
    revert names
    cases graph.blocks with
    | nil => exact fun impossible => by cases impossible
    | cons original others => exact fun names => (List.cons.inj names).1

/-- The blocks with their ends added, where nothing leads to the first one. -/
theorem builtFrom_of_unreached {ended : List Block} {nextKey : Nat}
    (written : Written function graph)
    (unreached : ∀ block ∈ graph.blocks, graph.entryName ∉ block.successors)
    (areEnded : Ended graph.blocks ended) (few : nextKey ≤ graph.nextKey + graph.blocks.length) :
    BuiltFrom function { graph with blocks := ended, nextKey } := by
  -- Every instruction is one of the function or an end that was added.
  have mem_instrs : ∀ block ∈ ended, ∀ instr ∈ block.instrs, instr ∈ function.instrs ∨
      (∃ target, instr.action = (Instr.jmp target).action) ∨
        instr.action = (Instr.ret none).action := by
    intro block member instr inBlock
    rcases areEnded.mem_instrs member inBlock with ⟨before, inBlocks, inBefore⟩ | isAdded
    · exact .inl ((written.straight before inBlocks).2 instr inBefore)
    · exact .inr isAdded
  have wellFormed : (∀ block ∈ ended, ∀ instr ∈ block.body, instr.isPhi = false) →
      WellFormed { graph with blocks := ended, nextKey } :=
    @wellFormed_of_ended graph { graph with blocks := ended, nextKey } areEnded rfl
      written.nonempty written.nodup_names
      (by rw [paramNames, written.params_eq]; exact written.checked.nodup_params)
      (fun block member => (written.straight block member).1)
      (fun block member instr inBlock =>
        written.checked.instrs instr ((written.straight block member).2 instr inBlock))
      written.target_mem unreached
  obtain ⟨sameLength, moreInstrs⟩ := areEnded.length_le
  have fewBlocks := written.length_blocks
  have fewInstrs := written.length_instrs
  have nextKey_eq := written.nextKey_eq
  refine ⟨written.checked, written.name_eq, written.params_eq, mem_instrs, wellFormed, ?_, ?_, ?_,
    ?_⟩
  · -- No merge is run, so the blocks run as the code does from the block that holds its start.
    rintro unmerged machine calls args answer ⟨fuel, ran⟩
    have none := unmerged_of_mem_instrs unmerged mem_instrs
    obtain ⟨env, bound, ran⟩ := Option.bind_eq_some_iff.1 ran
    obtain ⟨first, rest, isEnded, _, more, runs⟩ := written.exists_runFrom
      (wellFormed fun block member instr inBody =>
        none block member instr (Block.mem_of_mem_body inBody))
      areEnded (fun _ member => member) none ran
    refine ⟨more, Option.bind_eq_some_iff.2 ⟨env, by rw [← bound, ← written.params_eq], ?_⟩⟩
    exact Option.bind_eq_some_iff.2 ⟨first, by rw [isEnded]; rfl, runs (.none)⟩
  · dsimp only
    omega
  · rw [instrs]
    dsimp only
    omega
  · dsimp only
    omega

/-- The entry is a block. -/
theorem entryName_mem (written : Written function graph) : graph.entryName ∈ graph.names := by
  have nonempty := written.nonempty
  unfold entryName names
  revert nonempty
  cases graph.blocks with
  | nil => exact fun impossible => absurd rfl impossible
  | cons first rest => exact fun _ => List.mem_cons_self ..

/-- A new entry has a name of its own and jumps to the entry so far. -/
structure IsEntry (graph : FlowGraph) (entry : Block) (jump : Instr) : Prop where
  /-- The jump is its only instruction. -/
  instrs_eq : entry.instrs = [jump]
  /-- It leads to the entry so far. -/
  action_eq : jump.action = (Instr.jmp graph.entryName).action
  /-- The name is new. -/
  fresh : entry.name ∉ graph.names

variable {entry : Block} {jump : Instr} {ended : List Block} {nextKey nextBlock : Nat}

/-- Blocks with a new entry in front and their ends added hold instructions of the function, jumps
and returns. -/
theorem mem_instrs_of_entry (written : Written function graph) (isEntry : IsEntry graph entry jump)
    (areEnded : Ended (entry :: graph.blocks) ended) :
    ∀ block ∈ ended, ∀ instr ∈ block.instrs, instr ∈ function.instrs ∨
      (∃ target, instr.action = (Instr.jmp target).action) ∨
        instr.action = (Instr.ret none).action := by
  intro block member instr inBlock
  rcases areEnded.mem_instrs member inBlock with ⟨before, inBlocks, inBefore⟩ | isAdded
  · rcases List.mem_cons.1 inBlocks with rfl | inWritten
    · rw [isEntry.instrs_eq, List.mem_singleton] at inBefore
      exact .inr (.inl ⟨_, inBefore ▸ isEntry.action_eq⟩)
    · exact .inl ((written.straight before inWritten).2 instr inBefore)
  · exact .inr isAdded

/-- Blocks with a new entry in front and their ends added are well-formed if merges come first. -/
theorem wellFormed_of_entry (written : Written function graph) (isEntry : IsEntry graph entry jump)
    (areEnded : Ended (entry :: graph.blocks) ended)
    (leading : ∀ block ∈ ended, ∀ instr ∈ block.body, instr.isPhi = false) :
    WellFormed { graph with blocks := ended, nextKey, nextBlock } := by
  obtain ⟨_, jumpChecked, notLabel, _⟩ := Instr.jmp_spec isEntry.action_eq
  obtain ⟨_, leadsOn⟩ := Block.wellFormed_of_jump isEntry.instrs_eq isEntry.action_eq
  have onlyJump : ∀ {holds : Instr → Prop}, holds jump → ∀ instr ∈ entry.instrs, holds instr := by
    intro holds held instr member
    rw [isEntry.instrs_eq, List.mem_singleton] at member
    rwa [member]
  have params : (graph.params.map Param.name).Nodup := by
    rw [written.params_eq]
    exact written.checked.nodup_params
  -- What holds of the new entry and of all written blocks holds of all blocks.
  refine @wellFormed_of_ended { graph with blocks := entry :: graph.blocks }
    { graph with blocks := ended, nextKey, nextBlock } areEnded rfl (by simp)
    (List.nodup_cons.2 ⟨isEntry.fresh, written.nodup_names⟩) params
    (List.forall_mem_cons.2 ⟨⟨onlyJump notLabel, by simp [isEntry.instrs_eq]⟩,
      fun block member => (written.straight block member).1⟩)
    (List.forall_mem_cons.2 ⟨onlyJump jumpChecked, fun block member instr inBlock =>
      written.checked.instrs instr ((written.straight block member).2 instr inBlock)⟩)
    (List.forall_mem_cons.2 ⟨?_, fun block member target leads =>
      List.mem_cons_of_mem _ (written.target_mem block member target leads)⟩)
    (List.forall_mem_cons.2 ⟨?_, fun block member leads =>
      isEntry.fresh (written.target_mem block member _ leads)⟩) leading
  · rw [leadsOn]
    intro target isTarget
    rw [List.mem_singleton.1 isTarget]
    exact List.mem_cons_of_mem _ written.entryName_mem
  · rw [leadsOn, List.mem_singleton]
    intro same
    have same : entry.name = graph.entryName := same
    exact isEntry.fresh (by rw [same]; exact written.entryName_mem)

/-- A run through the new entry gets to the first block of the code. -/
theorem exists_runFrom_of_entry (written : Written function graph)
    (isEntry : IsEntry graph entry jump) (areEnded : Ended (entry :: graph.blocks) ended)
    (unmerged : ∀ block ∈ ended, ∀ instr ∈ block.instrs, instr.isPhi = false)
    {machine : Machine} {calls : Calls} {fuel : Nat} {state : State} {answer : Answer}
    (ran : Func.runFrom machine calls function.instrs fuel function.instrs none none state =
      some answer) :
    ∃ first rest, ended = first :: rest ∧ ∃ more,
      ({ graph with blocks := ended, nextKey, nextBlock } : FlowGraph).runFrom machine calls more
        first none state = some answer := by
  have formed : WellFormed { graph with blocks := ended, nextKey, nextBlock } :=
    written.wellFormed_of_entry isEntry areEnded fun block member instr inBody =>
      unmerged block member instr (Block.mem_of_mem_body inBody)
  cases areEnded with
  | @cons _ newEntry _ later ending _ instrs_eq entryEnds areEnded =>
    obtain ⟨first, rest, isEnded, isFirst, more, runs⟩ := written.exists_runFrom formed areEnded
      (fun _ member => List.mem_cons_of_mem _ member)
      (fun block member => unmerged block (List.mem_cons_of_mem _ member)) ran
    -- The new entry ends already, so no end was added to it.
    have isJump : newEntry.instrs = [] ++ [jump] := by
      rcases entryEnds with ⟨rfl, _⟩ | ⟨plain, _⟩
      · rw [instrs_eq, isEntry.instrs_eq]
        rfl
      · have goesOn := plain jump (by rw [isEntry.instrs_eq]; simp)
        rw [(Instr.jmp_spec isEntry.action_eq).1] at goesOn
        cases goesOn
    have step : newEntry.exec machine calls none state = some (state, .jump graph.entryName) := by
      rw [Block.exec_of_unmerged (unmerged newEntry (List.mem_cons_self ..)), isJump,
        Instr.execAll_concat_iff (by simp)]
      exact ⟨state, rfl, Instr.exec_of_jmp isEntry.action_eq _⟩
    have found : ({ graph with blocks := newEntry :: later, nextKey, nextBlock } :
        FlowGraph).find? graph.entryName = some first := by
      rw [find?_eq_some_iff formed.nodup_names]
      exact ⟨List.mem_cons_of_mem _ (by rw [isEnded]; simp), isFirst⟩
    refine ⟨newEntry, later, rfl, more + 1, ?_⟩
    rw [FlowGraph.runFrom, step]
    simp only [Option.bind_eq_bind, Option.bind_some, found]
    exact runs _

/-- The blocks with a new entry in front, which jumps to the first one, and with their ends added. -/
theorem builtFrom_of_entry (written : Written function graph) (isEntry : IsEntry graph entry jump)
    (areEnded : Ended (entry :: graph.blocks) ended)
    (few : nextKey ≤ graph.nextKey + 1 + (graph.blocks.length + 1)) :
    BuiltFrom function { graph with blocks := ended, nextKey, nextBlock } := by
  have mem_instrs := written.mem_instrs_of_entry isEntry areEnded
  obtain ⟨sameLength, moreInstrs⟩ := areEnded.length_le
  have fewBlocks := written.length_blocks
  have fewInstrs := written.length_instrs
  have nextKey_eq := written.nextKey_eq
  rw [List.flatMap_cons, isEntry.instrs_eq, List.length_append, List.length_singleton,
    List.length_cons] at moreInstrs
  rw [List.length_cons] at sameLength
  refine ⟨written.checked, written.name_eq, written.params_eq, mem_instrs,
    written.wellFormed_of_entry isEntry areEnded, ?_, ?_, ?_, ?_⟩
  · rintro unmerged machine calls args answer ⟨fuel, ran⟩
    obtain ⟨env, bound, ran⟩ := Option.bind_eq_some_iff.1 ran
    obtain ⟨first, rest, isEnded, more, runs⟩ := written.exists_runFrom_of_entry isEntry areEnded
      (unmerged_of_mem_instrs unmerged mem_instrs) ran
    refine ⟨more, Option.bind_eq_some_iff.2 ⟨env, by rw [← bound, ← written.params_eq], ?_⟩⟩
    exact Option.bind_eq_some_iff.2 ⟨first, by rw [isEnded]; rfl, runs⟩
  · dsimp only
    omega
  · rw [instrs]
    dsimp only
    omega
  · dsimp only
    omega

end Written

/-- A flow graph is built from a well-formed function in three stages: the function is cut up, an
entry is added, and blocks are ended. -/
theorem exists_stages_of_build {function : Func} {graph : FlowGraph} {log : Log}
    (built : build function = .ok (graph, log)) :
    ∃ start entry entered changed, Written function start ∧ ofSegments function = .ok start ∧
      start.addEntry = .ok (entry, entered) ∧ entered.addTerminators = .ok (changed, graph) := by
  obtain ⟨_, isChecked, built⟩ := Attempt.bind_eq_ok.1 built
  obtain ⟨start, cutUp, built⟩ := Attempt.bind_eq_ok.1 built
  obtain ⟨_, _, built⟩ := Attempt.bind_eq_ok.1 built
  obtain ⟨⟨entry, entered⟩, added, built⟩ := Attempt.bind_eq_ok.1 built
  obtain ⟨⟨changed, finished⟩, terminated, built⟩ := Attempt.bind_eq_ok.1 built
  obtain ⟨rfl, _⟩ := Prod.mk.inj (Except.ok.inj built)
  exact ⟨start, entry, entered, changed,
    Written.of_ofSegments (Func.checked_of_check isChecked) cutUp, cutUp, added, terminated⟩

/-- The flow graph of a function has its code. -/
theorem builtFrom_of_build {function : Func} {graph : FlowGraph} {log : Log}
    (built : build function = .ok (graph, log)) : BuiltFrom function graph := by
  obtain ⟨start, _, entered, _, written, _, added, terminated⟩ := exists_stages_of_build built
  have straight : ∀ block ∈ start.blocks, Straight block.instrs := fun block member =>
    (written.straight block member).1
  rcases addEntry_cases added with ⟨rfl, unreached⟩ | ⟨name, nextBlock, fresh, _, _, _, rfl⟩
  · obtain ⟨ended, nextKey, areEnded, few, rfl⟩ := addTerminators_spec straight terminated
    exact written.builtFrom_of_unreached unreached areEnded few
  · obtain ⟨ended, nextKey, areEnded, few, rfl⟩ := addTerminators_spec
      (List.forall_mem_cons.2 ⟨⟨by simp [Instr.isLabel, Instr.withKey, Instr.jmp, Instr.effect],
        by simp⟩, straight⟩) terminated
    have action : ((Instr.jmp start.entryName).withKey start.nextKey).action =
      (Instr.jmp start.entryName).action := rfl
    exact written.builtFrom_of_entry ⟨rfl, action, fresh⟩ areEnded few

/-- A well-formed function without merges has a flow graph unless keys run out. -/
theorem build_eq_error {function : Func} {error : Error}
    (unmerged : ∀ instr ∈ function.instrs, instr.isPhi = false)
    (failed : build function = .error error) :
    function.check = .error error ∨
      (error = .keysExhausted ∧ keyLimit ≤ function.maxKey + function.instrs.length + 4) := by
  rcases Attempt.bind_eq_error.1 failed with failed | ⟨_, isChecked, failed⟩
  · exact .inl failed
  refine .inr ?_
  rcases Attempt.bind_eq_error.1 failed with failed | ⟨start, cutUp, failed⟩
  · unfold ofSegments at failed
    dsimp only at failed
    split at failed
    · rename_i many
      exact ⟨(Except.error.inj failed).symm, by omega⟩
    · cases failed
  have written := Written.of_ofSegments (Func.checked_of_check isChecked) cutUp
  have fewBlocks := written.length_blocks
  have nextKey_eq := written.nextKey_eq
  rcases Attempt.bind_eq_error.1 failed with failed | ⟨_, _, failed⟩
  · rw [start.checkPhiLabels_of_unmerged fun block member instr inBlock =>
      unmerged instr ((written.straight block member).2 instr inBlock)] at failed
    cases failed
  rcases Attempt.bind_eq_error.1 failed with failed | ⟨⟨entry, entered⟩, added, failed⟩
  · obtain ⟨exhausted, many⟩ := addEntry_eq_error failed
    exact ⟨exhausted, by omega⟩
  rcases Attempt.bind_eq_error.1 failed with failed | ⟨_, _, failed⟩
  · rcases Attempt.bind_eq_error.1 failed with failed | ⟨_, _, failed⟩
    · obtain ⟨exhausted, many⟩ := terminate_eq_error failed
      rcases addEntry_cases added with ⟨rfl, _⟩ | ⟨_, _, _, _, _, _, rfl⟩
      · exact ⟨exhausted, by omega⟩
      · dsimp only at many
        rw [List.length_cons] at many
        exact ⟨exhausted, by omega⟩
    · cases failed
  · cases failed

end FlowGraph

end Midend
