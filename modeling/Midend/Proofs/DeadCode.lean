import Midend.DeadCode
import Midend.Proofs.Semantics.Liveness
import Midend.Proofs.Ssa.Kept

/-! # Correctness of dead code elimination

Instructions are dropped whose results are not wanted: those that nothing in the function reads, and
those that are overwritten in their block before they are read. Dropping them keeps names and edges
of blocks, single assignment, and what the flow graph does (`DeadCode.run_spec`). Every round drops
an instruction, so the usual limit on rounds is never reached (`DeadCode.run_result`). -/

namespace Midend

/-! ## Thinned code -/

/-- Instructions some of which are dropped: without side effects, and with results that are not
wanted. -/
inductive Thinned (out : String → Prop) : List Instr → List Instr → Prop where
  /-- Nothing is left of nothing. -/
  | nil : Thinned out [] []
  /-- An instruction is kept. -/
  | keep {instr : Instr} {rest kept : List Instr} :
      Thinned out rest kept → Thinned out (instr :: rest) (instr :: kept)
  /-- An instruction is dropped. -/
  | drop {instr : Instr} {dest : String} {rest kept : List Instr} :
      instr.isPure = true → instr.dest? = some dest → ¬Instr.Wanted out rest dest →
        Thinned out rest kept → Thinned out (instr :: rest) kept

namespace Thinned

variable {out : String → Prop} {instrs kept : List Instr}

/-- What is left stands in the old order. -/
theorem sublist (thinned : Thinned out instrs kept) : kept.Sublist instrs := by
  induction thinned with
  | nil => exact .slnil
  | keep _ restIH => exact restIH.cons_cons _
  | drop _ _ _ _ restIH => exact restIH.cons _

/-- Two lists of instructions are thinned one by one. -/
theorem exists_append {left right : List Instr} (thinned : Thinned out (left ++ right) kept) :
    ∃ first second, kept = first ++ second ∧ Thinned (Instr.Wanted out right) left first ∧
      Thinned out right second := by
  induction left generalizing kept with
  | nil => exact ⟨[], kept, rfl, .nil, thinned⟩
  | cons instr rest restIH =>
    rw [List.cons_append] at thinned
    cases thinned with
    | keep thinned =>
      obtain ⟨first, second, rfl, inLeft, inRight⟩ := restIH thinned
      exact ⟨instr :: first, second, rfl, .keep inLeft, inRight⟩
    | drop isPure isDest unwanted thinned =>
      obtain ⟨first, second, rfl, inLeft, inRight⟩ := restIH thinned
      rw [Instr.wanted_append] at unwanted
      exact ⟨first, second, rfl, .drop isPure isDest unwanted inLeft, inRight⟩

/-- A place in what is left is a place in the old code. -/
theorem exists_split {before rest : List Instr} {instr : Instr}
    (thinned : Thinned out instrs (before ++ instr :: rest)) :
    ∃ earlier later, instrs = earlier ++ instr :: later ∧ before.Sublist earlier ∧
      rest.Sublist later := by
  generalize isKept : before ++ instr :: rest = kept at thinned
  induction thinned generalizing before with
  | nil => simp at isKept
  | @keep first others kept thinned restIH =>
    cases before with
    | nil =>
      obtain ⟨rfl, rfl⟩ := List.cons.inj isKept
      exact ⟨[], others, rfl, .slnil, thinned.sublist⟩
    | cons _ before =>
      obtain ⟨rfl, isRest⟩ := List.cons.inj isKept
      obtain ⟨earlier, later, rfl, inEarlier, inLater⟩ := restIH isRest
      exact ⟨_ :: earlier, later, rfl, inEarlier.cons_cons _, inLater⟩
  | @drop first _ others kept _ _ _ _ restIH =>
    obtain ⟨earlier, later, rfl, inEarlier, inLater⟩ := restIH isKept
    exact ⟨first :: earlier, later, rfl, inEarlier.cons _, inLater⟩

/-- An instruction that ends a block is kept. -/
theorem eq_of_terminator {terminator : Instr} (ends : terminator.isTerminator = true)
    (thinned : Thinned out [terminator] kept) : kept = [terminator] := by
  cases thinned with
  | keep thinned =>
    cases thinned
    rfl
  | drop isPure =>
    rw [Instr.isTerminator_of_isPure isPure] at ends
    cases ends

/-! ## Runs -/

/-- Merges that are left write the same values as before. -/
theorem exists_mapM_select {phis : List Instr} (thinned : Thinned out phis kept) {source : String}
    {env mirror : Env} {base : String → Prop} (carries : Env.Carries base id env mirror)
    (args : ∀ phi ∈ phis, ∀ arg ∈ phi.args, base arg) {writes : List (String × Value)}
    (selected : phis.mapM (Instr.select source env) = some writes) :
    ∃ others, kept.mapM (Instr.select source mirror) = some others ∧
      ∀ start image, Env.Carries (Instr.Wanted out phis) id start image →
        Env.Carries out id (start.assign writes) (image.assign others) := by
  induction thinned generalizing writes with
  | nil =>
    obtain rfl := Option.some.inj selected
    exact ⟨[], rfl, fun _ _ carried => carried⟩
  | @keep phi rest kept _ restIH =>
    rw [List.mapM_cons] at selected
    obtain ⟨write, atPhi, selected⟩ := Option.bind_eq_some_iff.1 selected
    obtain ⟨later, atRest, selected⟩ := Option.bind_eq_some_iff.1 selected
    obtain rfl := Option.some.inj selected
    obtain ⟨others, atKept, carriesOn⟩ :=
      restIH (fun other member => args other (List.mem_cons_of_mem _ member)) atRest
    obtain ⟨arg, isDest, isArg, isValue⟩ := Instr.select_eq_some_iff.1 atPhi
    have atMirror : phi.select source mirror = some write := Instr.select_eq_some_iff.2
      ⟨arg, isDest, isArg, carries arg (args phi (List.mem_cons_self ..) arg
        (Instr.mem_args_of_lookup isArg)) _ isValue⟩
    refine ⟨write :: others, by rw [List.mapM_cons, atMirror, atKept]; rfl,
      fun start image carried => ?_⟩
    rw [Env.assign_cons, Env.assign_cons]
    refine carriesOn _ _ (carried.set (fun var isWanted isOther => .inr ⟨?_, isWanted⟩)
      (fun _ _ isOther => isOther) write.2)
    rw [isDest]
    exact fun same => isOther (Option.some.inj same).symm
  -- A dropped merge writes a variable that is not wanted, so the mirror does without the write.
  | @drop phi dest rest kept _ isDropped unwanted _ restIH =>
    rw [List.mapM_cons] at selected
    obtain ⟨write, atPhi, selected⟩ := Option.bind_eq_some_iff.1 selected
    obtain ⟨later, atRest, selected⟩ := Option.bind_eq_some_iff.1 selected
    obtain rfl := Option.some.inj selected
    obtain ⟨others, atKept, carriesOn⟩ :=
      restIH (fun other member => args other (List.mem_cons_of_mem _ member)) atRest
    obtain ⟨_, isDest, _⟩ := Instr.select_eq_some_iff.1 atPhi
    obtain rfl : dest = write.1 := Option.some.inj (isDropped.symm.trans isDest)
    refine ⟨others, atKept, fun start image carried => ?_⟩
    rw [Env.assign_cons]
    refine carriesOn _ _ (carried.set_left (fun var isWanted isOther => .inr ⟨?_, isWanted⟩)
      unwanted write.2)
    rw [isDest]
    exact fun same => isOther (Option.some.inj same).symm

/-- Merges that are left are entered as before. -/
theorem enter {phis : List Instr} (thinned : Thinned out phis kept) {source : Option String}
    {env mirror entered : Env} {base : String → Prop} (carries : Env.Carries base id env mirror)
    (args : ∀ phi ∈ phis, ∀ arg ∈ phi.args, base arg)
    (subset : ∀ var, Instr.Wanted out phis var → base var)
    (ran : Instr.enter phis source env = some entered) :
    ∃ last, Instr.enter kept source mirror = some last ∧ Env.Carries out id entered last := by
  cases source with
  | none =>
    unfold Instr.enter at ran
    split at ran
    · rename_i empty
      obtain rfl := Option.some.inj ran
      rw [List.isEmpty_iff] at empty
      subst empty
      cases thinned
      exact ⟨mirror, rfl, carries.mono subset⟩
    · cases ran
  | some source =>
    rw [Instr.enter_some] at ran
    obtain ⟨writes, selected, rfl⟩ := Option.map_eq_some_iff.1 ran
    obtain ⟨others, atKept, carriesOn⟩ := thinned.exists_mapM_select carries args selected
    refine ⟨mirror.assign others, ?_, carriesOn env mirror (carries.mono subset)⟩
    rw [Instr.enter_some, atKept, Option.map_some]

/-- Instructions that are left run as before. -/
theorem execAll (thinned : Thinned out instrs kept) {machine : Machine} {calls : Calls}
    {env mirror : Env} {lines : List String} {next : State}
    (carries : Env.Carries (Instr.Wanted out instrs) id env mirror)
    (ran : Instr.execAll machine calls instrs ⟨env, lines⟩ = some (next, .next)) :
    ∃ last, Instr.execAll machine calls kept ⟨mirror, lines⟩ = some (⟨last, next.lines⟩, .next) ∧
      Env.Carries out id next.env last := by
  induction thinned generalizing env mirror lines with
  | nil =>
    obtain rfl := (Prod.mk.inj (Option.some.inj ran)).1
    exact ⟨mirror, rfl, carries⟩
  | @keep instr rest kept _ restIH =>
    obtain ⟨⟨between, printed⟩, first, ran⟩ := Instr.execAll_cons_next_iff.1 ran
    obtain ⟨middle, mirrored, carried⟩ := carries.exec_same (fun arg isArg => .inl isArg) first
      fun var isWanted notDest => .inr ⟨notDest, isWanted⟩
    obtain ⟨last, others, carriedLast⟩ := restIH carried ran
    exact ⟨last, Instr.execAll_cons_next_iff.2 ⟨⟨middle, printed⟩, mirrored, others⟩, carriedLast⟩
  | @drop instr dest rest kept isPure isDest unwanted _ restIH =>
    obtain ⟨⟨between, printed⟩, first, ranRest⟩ := Instr.execAll_cons_next_iff.1 ran
    -- Nothing is printed, and what is written is not wanted.
    obtain rfl : printed = lines := Instr.lines_of_isPure isPure first
    refine restIH (fun var isWanted value held => ?_) ranRest
    have apart : instr.dest? ≠ some var := by
      rw [isDest]
      rintro same
      exact unwanted (Option.some.inj same ▸ isWanted)
    exact carries var (.inr ⟨apart, isWanted⟩) value
      ((Instr.exec_unwritten first apart).symm.trans held)

/-! ## Blocks -/

/-- The parts of a thinned block: merges and body are thinned, and what ends the block is kept. -/
theorem exists_parts {block image : Block} (thinned : Thinned out block.instrs image.instrs)
    (wellFormed : block.WellFormed) :
    ∃ middle kept terminator, block.body = middle ++ [terminator] ∧
      image.body = kept ++ [terminator] ∧ terminator.isTerminator = true ∧
      (∀ instr ∈ middle, instr.isTerminator = false) ∧
      Thinned (Instr.Wanted out block.body) block.phis image.phis ∧
      Thinned (Instr.Wanted out [terminator]) middle kept := by
  obtain ⟨middle, terminator, body_eq, _, plain, ends⟩ := wellFormed.exists_body
  rw [← block.phis_append_body] at thinned
  obtain ⟨phis, body, image_eq, inPhis, inBody⟩ := thinned.exists_append
  have others : ∀ instr ∈ body, instr.isPhi = false := fun instr member =>
    wellFormed.phis_first instr (inBody.sublist.subset member)
  obtain ⟨phis_eq, body_eq'⟩ := Block.phis_of_split image_eq
    (fun phi member => Block.isPhi_of_mem_phis (inPhis.sublist.subset member)) others
  rw [body_eq] at inBody
  obtain ⟨kept, last, rfl, inMiddle, isLast⟩ := inBody.exists_append
  rw [isLast.eq_of_terminator ends] at body_eq'
  exact ⟨middle, kept, terminator, body_eq, body_eq', ends, plain, phis_eq ▸ inPhis, inMiddle⟩

/-- A thinned block leads to where it led and is well-formed. -/
theorem wellFormed {block image : Block} (thinned : Thinned out block.instrs image.instrs)
    (wellFormed : block.WellFormed) : image.successors = block.successors ∧ image.WellFormed := by
  obtain ⟨middle, kept, terminator, body_eq, imageBody_eq, ends, plain, inPhis, inMiddle⟩ :=
    thinned.exists_parts wellFormed
  have split : block.instrs = (block.phis ++ middle) ++ [terminator] := by
    conv_lhs => rw [← block.phis_append_body, body_eq]
    rw [List.append_assoc]
  have imageSplit : image.instrs = (image.phis ++ kept) ++ [terminator] := by
    conv_lhs => rw [← image.phis_append_body, imageBody_eq]
    rw [List.append_assoc]
  have subset := thinned.sublist.subset
  have checked := wellFormed.checked terminator (by rw [split]; simp)
  refine ⟨?_, ⟨_, _, imageSplit, fun instr member => ?_, ends⟩,
    fun instr member => wellFormed.checked instr (subset member),
    fun instr member => wellFormed.unlabelled instr (subset member), fun instr member => ?_⟩
  · rw [Block.successors_of_terminator (Block.terminator?_of_split imageSplit ends) checked ends,
      Block.successors_of_terminator (Block.terminator?_of_split split ends) checked ends]
  · rcases List.mem_append.1 member with isPhi | inKept
    · exact Block.isTerminator_of_isPhi (Block.isPhi_of_mem_phis isPhi)
    · exact plain instr (inMiddle.sublist.subset inKept)
  · refine wellFormed.phis_first instr ?_
    rw [imageBody_eq] at member
    rw [body_eq]
    exact (inMiddle.sublist.append (.refl _)).subset member

/-- A thinned block does what it did. -/
theorem exec_block {block image : Block} (thinned : Thinned out block.instrs image.instrs)
    (wellFormed : block.WellFormed) (args : ∀ instr ∈ block.instrs, ∀ arg ∈ instr.args, out arg)
    {machine : Machine} {calls : Calls} {source : Option String} {env mirror : Env}
    {lines : List String} {next : State} {control : Control}
    (carries : Env.Carries out id env mirror)
    (ran : block.exec machine calls source ⟨env, lines⟩ = some (next, control)) :
    ∃ last, image.exec machine calls source ⟨mirror, lines⟩ = some (⟨last, next.lines⟩, control) ∧
      Env.Carries out id next.env last := by
  obtain ⟨middle, kept, terminator, body_eq, imageBody_eq, ends, plain, inPhis, inMiddle⟩ :=
    thinned.exists_parts wellFormed
  obtain ⟨entered, isEntered, ran⟩ := Block.exec_eq_some_iff.1 ran
  obtain ⟨start, isStart, carried⟩ := inPhis.enter carries
    (fun phi member => args phi (Block.mem_of_mem_phis member))
    (fun var isWanted => Instr.out_of_wanted args (by
      rw [← block.phis_append_body, Instr.wanted_append]
      exact isWanted)) isEntered
  rw [body_eq, Instr.wanted_append] at carried
  rw [body_eq, Instr.execAll_concat_iff plain] at ran
  obtain ⟨⟨between, printed⟩, ranMiddle, ranLast⟩ := ran
  obtain ⟨middleMirror, mirrored, carriedMiddle⟩ := inMiddle.execAll carried ranMiddle
  obtain ⟨last, mirroredLast, carriedLast⟩ := carriedMiddle.exec_same
    (fun arg isArg => .inl isArg) ranLast fun var isWanted notDest => .inr ⟨notDest, isWanted⟩
  refine ⟨last, Block.exec_eq_some_iff.2 ⟨start, isStart, ?_⟩, carriedLast⟩
  rw [imageBody_eq, Instr.execAll_concat_iff fun instr member =>
    plain instr (inMiddle.sublist.subset member)]
  exact ⟨_, mirrored, mirroredLast⟩

end Thinned

/-! ## Flow graphs -/

/-- A flow graph whose blocks are thinned. -/
structure FlowGraph.Thins (out : String → Prop) (change : Block → Block) (graph after : FlowGraph) :
    Prop where
  /-- The function keeps its name. -/
  name_eq : after.name = graph.name
  /-- The parameters stay. -/
  params_eq : after.params = graph.params
  /-- No key is used up. -/
  nextKey_eq : after.nextKey = graph.nextKey
  /-- The blocks are changed one by one. -/
  blocks_eq : after.blocks = graph.blocks.map change
  /-- Blocks keep their names. -/
  block_name : ∀ block, (change block).name = block.name
  /-- Blocks are thinned. -/
  thinned : ∀ block ∈ graph.blocks, Thinned out block.instrs (change block).instrs

namespace FlowGraph.Thins

variable {out : String → Prop} {change : Block → Block} {graph after : FlowGraph}

/-- Blocks and what they become. -/
theorem forall₂ (thins : Thins out change graph after) :
    List.Forall₂ (fun block image => image = change block) graph.blocks after.blocks := by
  rw [thins.blocks_eq, List.forall₂_map_right_iff]
  exact List.forall₂_same.2 fun _ _ => rfl

/-- Names and edges of blocks stay. -/
theorem recoded (thins : Thins out change graph after) (wellFormed : graph.WellFormed) :
    graph.Recoded after := by
  refine ⟨thins.name_eq, thins.params_eq, forall₂_imp_of_mem thins.forall₂ ?_⟩
  rintro block member image rfl
  exact ⟨thins.block_name block,
    (thins.thinned block member).wellFormed (wellFormed.blocks block member)⟩

/-- The flow graph does what it did. -/
theorem refines (thins : Thins out change graph after) (wellFormed : graph.WellFormed)
    (args : ∀ block ∈ graph.blocks, ∀ instr ∈ block.instrs, ∀ arg ∈ instr.args, out arg)
    (machine : Machine) : graph.Refines machine after := by
  refine FlowGraph.refines_of_blockwise wellFormed thins.params_eq thins.forall₂ ?_
    (fun _ _ env mirror => Env.Carries out id env mirror) (fun _ env _ _ _ => .refl out env) ?_
  · rintro block image rfl
    exact thins.block_name block
  · rintro calls block image source env mirror lines next control member rfl carries ran
    obtain ⟨last, mirrored, carried⟩ := (thins.thinned block member).exec_block
      (wellFormed.blocks block member) (args block member) carries ran
    exact ⟨last, mirrored, fun _ _ _ => carried⟩

/-- Instructions are only dropped. -/
theorem sublist_instrs (thins : Thins out change graph after) :
    after.instrs.Sublist graph.instrs := by
  rw [FlowGraph.instrs, FlowGraph.instrs, thins.blocks_eq, List.flatMap_map]
  exact List.Sublist.flatMap_right _ fun block member => (thins.thinned block member).sublist

/-- Single assignment stays. -/
theorem inSsa (thins : Thins out change graph after) (wellFormed : graph.WellFormed)
    (inSsa : Ssa.InSsa graph) : Ssa.InSsa after := by
  refine inSsa.of_kept (thins.recoded wellFormed) (forall₂_imp_of_mem thins.forall₂ ?_)
  rintro block member image rfl
  have thinned := thins.thinned block member
  obtain ⟨_, _, _, _, _, _, _, inPhis, _⟩ := thinned.exists_parts (wellFormed.blocks block member)
  refine ⟨(thinned.sublist.filterMap Instr.dest?).subperm, fun phi isPhi => ?_,
    fun before instr rest split notPhi arg isArg => ?_⟩
  · have isOriginal := inPhis.sublist.subset isPhi
    exact ⟨phi, isOriginal, rfl, rfl, inSsa.phi_available block member phi isOriginal⟩
  · rw [split] at thinned
    obtain ⟨earlier, later, split', inEarlier, inLater⟩ := thinned.exists_split
    refine ⟨earlier, inSsa.available block member earlier instr later split' notPhi arg isArg,
      fun written still => ?_⟩
    -- What is still written is written in this block, where it was written before.
    have inBlock : arg ∈ block.defs := by
      rw [Block.defs, split', List.filterMap_append]
      exact List.mem_append_left _ written
    obtain ⟨other, isOther, inOther⟩ := FlowGraph.mem_dests.1 still
    rw [thins.blocks_eq] at isOther
    obtain ⟨source, isSource, rfl⟩ := List.mem_map.1 isOther
    have inSource : arg ∈ source.defs :=
      ((thins.thinned source isSource).sublist.filterMap Instr.dest?).subset inOther
    rw [← inSsa.block_unique member isSource inBlock inSource, Block.defs, split,
      List.filterMap_append, List.mem_append] at inOther
    refine inOther.resolve_right fun behind => ?_
    have nodup := inSsa.nodup_defs member
    rw [Block.defs, split', List.filterMap_append] at nodup
    exact List.disjoint_of_nodup_append nodup written
      (((inLater.cons_cons instr).filterMap Instr.dest?).subset behind)

end FlowGraph.Thins

namespace DeadCode

/-! ## Unread variables -/

/-- Dropping the instructions that write unread variables thins code that reads only read ones. -/
theorem thinned_filter {read : SortedSet String} {instrs : List Instr}
    (args : ∀ instr ∈ instrs, ∀ arg ∈ instr.args, arg ∈ read) :
    Thinned (· ∈ read) instrs (instrs.filter fun instr => !isUnused read instr) := by
  induction instrs with
  | nil => exact .nil
  | cons instr rest restIH =>
    have argsRest : ∀ other ∈ rest, ∀ arg ∈ other.args, arg ∈ read := fun other member =>
      args other (List.mem_cons_of_mem _ member)
    rw [List.filter_cons]
    split
    · exact .keep (restIH argsRest)
    · rename_i dropped
      rw [Bool.not_eq_true, Bool.not_eq_false', isUnused, Bool.and_eq_true] at dropped
      obtain ⟨isPure, unread⟩ := dropped
      split at unread
      · rename_i dest isDest
        refine .drop isPure isDest (fun wanted => ?_) (restIH argsRest)
        rw [SortedSet.contains_iff.2 (Instr.out_of_wanted argsRest wanted)] at unread
        cases unread
      · cases unread

/-! ## Overwritten variables -/

/-- Pending writes after some reads: those of variables that were not read. -/
theorem get?_foldl_erase (args : List String) (pending : SortedMap String Nat) (var : String) :
    (args.foldl (fun pending arg => pending.erase arg) pending).get? var =
      if var ∈ args then none else pending.get? var := by
  induction args generalizing pending with
  | nil => simp
  | cons arg rest restIH =>
    rw [List.foldl_cons, restIH, SortedMap.get?_erase_eq]
    by_cases isArg : var = arg <;> by_cases inRest : var ∈ rest <;> simp [isArg, inRest]

/-- The writes that are unread behind an instruction, given those before it. -/
def pendingAfter (index : Nat) (instr : Instr) (pending : SortedMap String Nat) :
    SortedMap String Nat :=
  let pending := instr.args.foldl (fun pending arg => pending.erase arg) pending
  match instr.dest? with
  | none => pending
  | some dest =>
    let pending := pending.erase dest
    if instr.isPure then pending.insert dest index else pending

section Scan

variable {index place : Nat} {instr : Instr} {instrs rest : List Instr}
  {pending : SortedMap String Nat} {var : String}

/-- The scan of a block reports what the first instruction overwrites, and goes on behind it. -/
theorem overwrittenFrom_cons (index : Nat) (instr : Instr) (rest : List Instr)
    (pending : SortedMap String Nat) :
    overwrittenFrom index (instr :: rest) pending =
      (instr.dest?.bind (instr.args.foldl (fun pending arg => pending.erase arg) pending).get?).toList
        ++ overwrittenFrom (index + 1) rest (pendingAfter index instr pending) := by
  rw [overwrittenFrom, pendingAfter]
  cases instr.dest? <;> rfl

/-- The places that the scan reports at the first instruction, and behind it. -/
theorem mem_overwrittenFrom_cons :
    place ∈ overwrittenFrom index (instr :: rest) pending ↔
      (∃ dest, instr.dest? = some dest ∧ dest ∉ instr.args ∧ pending.get? dest = some place) ∨
        place ∈ overwrittenFrom (index + 1) rest (pendingAfter index instr pending) := by
  rw [overwrittenFrom_cons, List.mem_append, Option.mem_toList, Option.bind_eq_some_iff]
  refine or_congr_left (exists_congr fun dest => and_congr_right fun _ => ?_)
  rw [get?_foldl_erase]
  split
  · rename_i isArg
    simp [isArg]
  · rename_i notArg
    simp [notArg]

/-- A write is unread behind an instruction without side effects that makes it, and behind one that
neither reads nor writes its variable. -/
theorem get?_pendingAfter_eq_some_iff :
    (pendingAfter index instr pending).get? var = some place ↔
      (instr.isPure = true ∧ instr.dest? = some var ∧ place = index) ∨
        (instr.dest? ≠ some var ∧ var ∉ instr.args ∧ pending.get? var = some place) := by
  -- What the instruction reads is not pending any more when it writes.
  have unread : (instr.args.foldl (fun pending arg => pending.erase arg) pending).get? var =
      some place ↔ var ∉ instr.args ∧ pending.get? var = some place := by
    rw [get?_foldl_erase]
    split
    · rename_i isArg
      simp [isArg]
    · rename_i notArg
      simp [notArg]
  rw [pendingAfter]
  cases instr.dest? with
  | none => simpa using unread
  | some dest =>
    dsimp only
    by_cases isVar : var = dest
    · subst isVar
      cases instr.isPure <;> simp [eq_comm]
    · have apart : dest ≠ var := fun same => isVar same.symm
      cases instr.isPure <;> simp [isVar, apart, unread]

/-- The writes that are unread are ones that the scan has been at. -/
theorem lt_of_get?_pendingAfter
    (below : ∀ var place, pending.get? var = some place → place < index) :
    ∀ var place, (pendingAfter index instr pending).get? var = some place → place < index + 1 := by
  intro var place found
  rcases get?_pendingAfter_eq_some_iff.1 found with ⟨_, _, rfl⟩ | ⟨_, _, isPending⟩
  · exact Nat.lt_succ_self _
  · exact Nat.lt_succ_of_lt (below var place isPending)

/-- The scan reports instructions without side effects whose results are not wanted, and pending
writes of variables that are not wanted from the current place on. -/
theorem overwritten_spec (below : ∀ var place, pending.get? var = some place → place < index)
    (reported : place ∈ overwrittenFrom index instrs pending) :
    (∃ var, pending.get? var = some place ∧ ¬Instr.Wanted (fun _ => True) instrs var) ∨
      ∃ before instr rest dest, instrs = before ++ instr :: rest ∧ index + before.length = place ∧
        instr.isPure = true ∧ instr.dest? = some dest ∧
          ¬Instr.Wanted (fun _ => True) rest dest := by
  induction instrs generalizing index pending with
  | nil => cases reported
  | cons instr rest restIH =>
    rcases mem_overwrittenFrom_cons.1 reported with ⟨dest, writes, notArg, isPending⟩ | reported
    · exact .inl ⟨dest, isPending, fun wanted => wanted.elim notArg fun later => later.1 writes⟩
    rcases restIH (lt_of_get?_pendingAfter below) reported with ⟨var, found, unwanted⟩ |
      ⟨before, other, later, dest, rfl, isPlace, facts⟩
    · rcases get?_pendingAfter_eq_some_iff.1 found with ⟨isPure, writes, rfl⟩ |
        ⟨_, notArg, isPending⟩
      · exact .inr ⟨[], instr, rest, var, rfl, rfl, isPure, writes, unwanted⟩
      · exact .inl ⟨var, isPending, fun wanted =>
          wanted.elim notArg fun later => unwanted later.2⟩
    · exact .inr ⟨instr :: before, other, later, dest, rfl,
        by rw [List.length_cons]; omega, facts⟩

end Scan

/-- Dropping instructions by their places thins code when what is dropped is not wanted. -/
theorem thinned_zipIdx {dead : List Nat} {instrs : List Instr} (index : Nat)
    (unwanted : ∀ place ∈ dead, ∀ before instr rest, instrs = before ++ instr :: rest →
      index + before.length = place → ∃ dest, instr.isPure = true ∧ instr.dest? = some dest ∧
        ¬Instr.Wanted (fun _ => True) rest dest) :
    Thinned (fun _ => True) instrs
      (((instrs.zipIdx index).filter fun pair => !dead.contains pair.2).map Prod.fst) := by
  induction instrs generalizing index with
  | nil => exact .nil
  | cons instr rest restIH =>
    have thinned := restIH (index + 1) fun place isDead before other later split isPlace =>
      unwanted place isDead (instr :: before) other later (by rw [split, List.cons_append])
        (by rw [List.length_cons]; omega)
    rw [List.zipIdx_cons, List.filter_cons]
    split
    · exact .keep thinned
    · rename_i isDead
      obtain ⟨dest, isPure, isDest, notWanted⟩ :=
        unwanted index (by simpa using isDead) [] instr rest rfl rfl
      exact .drop isPure isDest notWanted thinned

/-- Dropping overwritten writes thins a block. -/
theorem thinned_dropOverwritten (place : Place) (block : Block) :
    Thinned (fun _ => True) block.instrs (dropOverwritten place block).1.instrs := by
  have kept_eq : (dropOverwritten place block).1.instrs =
      ((block.instrs.zipIdx.filter fun pair =>
        !(overwrittenFrom 0 block.instrs .empty).contains pair.2).map Prod.fst) := by
    rw [dropOverwritten, List.partition_eq_filter_filter]
    rfl
  rw [kept_eq]
  refine thinned_zipIdx 0 fun index reported before instr rest split isIndex => ?_
  rcases overwritten_spec (by simp) reported with ⟨var, found, _⟩ |
    ⟨before', instr', rest', dest, split', isIndex', isPure, isDest, unwanted⟩
  · simp at found
  · -- An instruction is found by its place.
    obtain ⟨rfl, same⟩ := List.append_inj (split.symm.trans split') (by omega)
    obtain ⟨rfl, rfl⟩ := List.cons.inj same
    exact ⟨dest, isPure, isDest, unwanted⟩

/-! ## Rounds -/

/-- Blocks are changed one by one. -/
theorem changeBlocks_eq (function : String) (change : Place → Block → Block × Log)
    (blocks : List Block) :
    (changeBlocks function change blocks).1 = blocks.map fun block =>
      (change ⟨function, block.name, passName⟩ block).1 := by
  induction blocks with
  | nil => rfl
  | cons block rest restIH =>
    rw [List.map_cons, ← restIH]
    rfl

/-- A flow graph without the instructions that write unread variables. -/
def withoutUnused (graph : FlowGraph) : FlowGraph :=
  { graph with blocks := (changeBlocks graph.name (dropUnused (readVars graph)) graph.blocks).1 }

/-- A flow graph without the instructions that are overwritten in their blocks. -/
def withoutOverwritten (graph : FlowGraph) : FlowGraph :=
  { graph with blocks := (changeBlocks graph.name dropOverwritten graph.blocks).1 }

/-- A round drops unused and then overwritten instructions. -/
theorem round_eq (graph : FlowGraph) :
    (round graph).1 = withoutOverwritten (withoutUnused graph) := rfl

/-- All arguments are read. -/
theorem mem_readVars {graph : FlowGraph} {block : Block} (member : block ∈ graph.blocks)
    {instr : Instr} (inside : instr ∈ block.instrs) {arg : String} (isArg : arg ∈ instr.args) :
    arg ∈ readVars graph :=
  SortedSet.mem_ofList.2
    (List.mem_flatMap.2 ⟨instr, List.mem_flatMap.2 ⟨block, member, inside⟩, isArg⟩)

/-- Dropping unused instructions thins a flow graph. -/
theorem thins_withoutUnused (graph : FlowGraph) :
    graph.Thins (· ∈ readVars graph)
      (fun block => (dropUnused (readVars graph) ⟨graph.name, block.name, passName⟩ block).1)
      (withoutUnused graph) := by
  refine ⟨rfl, rfl, rfl, changeBlocks_eq .., fun _ => rfl, fun block member => ?_⟩
  have kept_eq : (dropUnused (readVars graph) ⟨graph.name, block.name, passName⟩ block).1.instrs =
      block.instrs.filter fun instr => !isUnused (readVars graph) instr := by
    rw [dropUnused, List.partition_eq_filter_filter]
    rfl
  rw [kept_eq]
  exact thinned_filter fun instr inside arg => mem_readVars member inside

/-- Dropping overwritten instructions thins a flow graph. -/
theorem thins_withoutOverwritten (graph : FlowGraph) :
    graph.Thins (fun _ => True)
      (fun block => (dropOverwritten ⟨graph.name, block.name, passName⟩ block).1)
      (withoutOverwritten graph) :=
  ⟨rfl, rfl, rfl, changeBlocks_eq .., fun _ => rfl, fun block _ => thinned_dropOverwritten _ block⟩

/-- What holds of passes that drop dead code: names and edges of blocks stay, single assignment
stays, and the flow graph does what it did. -/
structure Cleans (graph after : FlowGraph) : Prop where
  /-- Names and edges stay. -/
  recoded : graph.Recoded after
  /-- Single assignment stays. -/
  inSsa : Ssa.InSsa graph → Ssa.InSsa after
  /-- The flow graph does what it did. -/
  refines : ∀ machine, graph.Refines machine after
  /-- Instructions are only dropped. -/
  sublist : after.instrs.Sublist graph.instrs
  /-- No key is used up. -/
  nextKey_eq : after.nextKey = graph.nextKey

/-- What has no dead code stays. -/
theorem Cleans.refl {graph : FlowGraph} (wellFormed : graph.WellFormed) : Cleans graph graph :=
  ⟨.refl wellFormed, id, fun machine => .refl machine graph, .refl _, rfl⟩

/-- Dropping in two steps. -/
theorem Cleans.trans {graph middle after : FlowGraph} (first : Cleans graph middle)
    (second : Cleans middle after) : Cleans graph after :=
  ⟨first.recoded.trans second.recoded, fun inSsa => second.inSsa (first.inSsa inSsa),
    fun machine => (first.refines machine).trans (second.refines machine),
    second.sublist.trans first.sublist, second.nextKey_eq.trans first.nextKey_eq⟩

/-- A thinned flow graph is cleaned. -/
theorem Cleans.of_thins {out : String → Prop} {change : Block → Block} {graph after : FlowGraph}
    (thins : graph.Thins out change after) (wellFormed : graph.WellFormed)
    (args : ∀ block ∈ graph.blocks, ∀ instr ∈ block.instrs, ∀ arg ∈ instr.args, out arg) :
    Cleans graph after :=
  ⟨thins.recoded wellFormed, thins.inSsa wellFormed, thins.refines wellFormed args,
    thins.sublist_instrs, thins.nextKey_eq⟩

/-- A round drops dead code. -/
theorem cleans_round {graph : FlowGraph} (wellFormed : graph.WellFormed) :
    Cleans graph (round graph).1 := by
  have first := Cleans.of_thins (thins_withoutUnused graph) wellFormed
    fun block member instr inside arg => mem_readVars member inside
  have second := Cleans.of_thins (thins_withoutOverwritten (withoutUnused graph))
    (first.recoded.wellFormed wellFormed) fun _ _ _ _ _ _ => trivial
  rw [round_eq]
  exact first.trans second

/-- Rounds drop dead code, however many there are. -/
theorem cleans_rounds (budget : Nat) {graph : FlowGraph} (wellFormed : graph.WellFormed) :
    Cleans graph (rounds budget graph).1 := by
  induction budget generalizing graph with
  | zero => exact .refl wellFormed
  | succ budget budgetIH =>
    rw [rounds]
    dsimp only
    split
    · exact .refl wellFormed
    · have first := cleans_round wellFormed
      exact first.trans (budgetIH (first.recoded.wellFormed wellFormed))

/-- Dead code elimination keeps names and edges of blocks, single assignment, and what the flow graph
does, whether or not it settles. -/
theorem run_spec {graph : FlowGraph} (wellFormed : graph.WellFormed) (limit : Option Nat) :
    Cleans graph (run graph limit).1 := cleans_rounds _ wellFormed

/-! ## Settling -/

/-- The number of instructions of blocks. -/
def countInstrs (blocks : List Block) : Nat := (blocks.flatMap Block.instrs).length

/-- Every dropped instruction is reported. -/
theorem count_changeBlocks (function : String) {change : Place → Block → Block × Log}
    (counts : ∀ place block,
      (change place block).1.instrs.length + (change place block).2.length = block.instrs.length)
    (blocks : List Block) :
    countInstrs (changeBlocks function change blocks).1 +
      (changeBlocks function change blocks).2.length = countInstrs blocks := by
  unfold countInstrs
  induction blocks with
  | nil => rfl
  | cons block rest restIH =>
    have here := counts ⟨function, block.name, passName⟩ block
    simp only [changeBlocks, List.flatMap_cons, List.length_append] at restIH ⊢
    omega

/-- Of a list that is parted nothing gets lost. -/
theorem length_partition {α : Type} (keep : α → Bool) (list : List α) :
    (list.partition keep).2.length + (list.partition keep).1.length = list.length := by
  rw [List.partition_eq_filter_filter, Nat.add_comm, ← List.length_append]
  exact (List.filter_append_perm keep list).length_eq

/-- As many unread writes are reported as are dropped. -/
theorem counts_dropUnused (read : SortedSet String) (place : Place) (block : Block) :
    (dropUnused read place block).1.instrs.length + (dropUnused read place block).2.length =
      block.instrs.length := by
  rw [← length_partition (isUnused read) block.instrs, dropUnused, List.length_map]

/-- As many overwritten writes are reported as are dropped. -/
theorem counts_dropOverwritten (place : Place) (block : Block) :
    (dropOverwritten place block).1.instrs.length + (dropOverwritten place block).2.length =
      block.instrs.length := by
  have parts := length_partition (fun pair : Instr × Nat =>
    (overwrittenFrom 0 block.instrs .empty).contains pair.2) block.instrs.zipIdx
  rw [List.length_zipIdx] at parts
  rw [← parts, dropOverwritten, List.length_map, List.length_map]

/-- A round reports as many instructions as it drops. -/
theorem count_round (graph : FlowGraph) :
    (round graph).1.instructionCount + (round graph).2.length = graph.instructionCount := by
  have unused := count_changeBlocks graph.name (counts_dropUnused (readVars graph)) graph.blocks
  have overwritten :=
    count_changeBlocks graph.name counts_dropOverwritten (withoutUnused graph).blocks
  have log_eq : (round graph).2 =
      (changeBlocks graph.name (dropUnused (readVars graph)) graph.blocks).2 ++
        (changeBlocks graph.name dropOverwritten (withoutUnused graph).blocks).2 := rfl
  rw [log_eq, List.length_append]
  change countInstrs _ + _ = countInstrs _
  have middle : countInstrs (withoutUnused graph).blocks = countInstrs
    (changeBlocks graph.name (dropUnused (readVars graph)) graph.blocks).1 := rfl
  have last : countInstrs (round graph).1.blocks = countInstrs
    (changeBlocks graph.name dropOverwritten (withoutUnused graph).blocks).1 := rfl
  omega

/-- Rounds settle when there are more of them than instructions. -/
theorem settled_of_lt {budget : Nat} {graph : FlowGraph}
    (enough : graph.instructionCount < budget) : (rounds budget graph).2.2 = true := by
  induction budget generalizing graph with
  | zero => cases enough
  | succ budget budgetIH =>
    rw [rounds]
    dsimp only
    split
    · rfl
    · rename_i reported
      have counts := count_round graph
      have positive : 0 < (round graph).2.length :=
        List.length_pos_iff.2 fun empty => reported (by rw [empty]; rfl)
      exact budgetIH (by omega)

/-- With the usual limit dead code elimination settles. -/
theorem run_result (graph : FlowGraph) : (run graph none).2.2 = .ok () := by
  rw [run]
  dsimp only
  rw [if_pos]
  exact settled_of_lt (Nat.lt_succ_self _)

end DeadCode

end Midend
