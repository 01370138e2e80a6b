import Midend.Proofs.FlowGraph.Faithful
import Midend.Proofs.FlowGraph.SplitEdge

/-! # Flow graphs with other ways

A flow graph whose blocks have images in another one, which run the same instructions and lead to
images again, over a block that only jumps or directly, comes to the same written out
(`FlowGraph.Rerouted.alike_flatten`): to the same answer, or both fail, or neither ends. Merges of an
image need not be those of the block as long as they do the same where control comes from. -/

namespace Midend

/-- What ends a block waits for no call. -/
theorem Instr.awaits_of_isTerminator {instr : Instr} (ends : instr.isTerminator = true)
    (callees : Callees) (state : State) : instr.awaits callees state = false := by
  refine awaits_of_op fun isCall => ?_
  rw [isTerminator, isCall] at ends
  cases ends

/-- A flat run from the label of a block on goes through the merges of the block. -/
theorem Func.exists_advance_body {machine : Machine} {callees : Callees} {code : List Instr}
    {block : Block} (nonempty : block.body ≠ []) {label : Instr}
    (isLabel : label.action = .label block.name) (rest : List Instr)
    (source previous : Option String) (state : State) :
    ∃ steps, ∀ fuel, advance machine callees code
        ⟨label :: (block.instrs ++ rest), source, previous, state⟩ (fuel + (steps + 1)) =
      match Instr.enter block.phis source state.env with
      | some env => advance machine callees code
          ⟨block.body ++ rest, some block.name, source, { state with env }⟩ fuel
      | none => .failed := by
  obtain ⟨leading, remaining⟩ := FlowGraph.leading_phis nonempty rest
  rcases FlowGraph.phis_cases block with ⟨phis, whole⟩ | ⟨phi, others, phis, isPhi, whole⟩
  · refine ⟨0, fun fuel => ?_⟩
    rw [phis, whole]
    exact advance_of_step (step_label isLabel) fuel
  · refine ⟨1, fun fuel => ?_⟩
    have first : block.instrs ++ rest = phi :: (others ++ block.body ++ rest) := by
      rw [whole, List.cons_append]
    rw [← Nat.add_assoc, advance_of_step (step_label isLabel), first, advance, step_phi isPhi,
      ← first, leading, remaining]
    cases Instr.enter block.phis source state.env <;> rfl

namespace FlowGraph

/-- A flow graph whose blocks have images in another one: what ends an image leads to other names,
and there to the images of the blocks that the block leads to. What is linked is a block and where
runs of both flow graphs may come from when they enter it and its image. -/
structure Rerouted (graph after : FlowGraph) (image : Block → Block)
    (jumps : Block → String → String) (linked : Block → Option String → Option String → Prop) :
    Prop where
  /-- The parameters are the same. -/
  params_eq : after.params = graph.params
  /-- Blocks have names of their own. -/
  nodup_names : after.names.Nodup
  /-- There is no label in a block. -/
  unlabelled : ∀ block ∈ after.blocks, ∀ instr ∈ block.instrs, instr.isLabel = false
  /-- The first block is the image of the first block. -/
  head_eq : after.blocks.head? = graph.blocks.head?.map image
  /-- Runs start there. -/
  linked_first : ∀ first, graph.blocks.head? = some first → linked first none none
  /-- Blocks that are entered and their images are there. -/
  member : ∀ {block source origin}, linked block source origin →
    block ∈ graph.blocks ∧ image block ∈ after.blocks
  /-- The merges of both do the same. -/
  enter_eq : ∀ {block source origin}, linked block source origin → ∀ env,
    Instr.enter (image block).phis origin env = Instr.enter block.phis source env
  /-- The bodies are the same, but for where they lead. -/
  body_eq : ∀ block ∈ graph.blocks, ∀ middle terminator, block.body = middle ++ [terminator] →
    (image block).body = middle ++ [terminator.mapLabels (jumps block)]
  /-- What ends an image leads to images, directly or over a block that jumps there. -/
  onward : ∀ {block source origin target}, linked block source origin → target ∈ graph.blocks →
    target.name ∈ block.successors →
      (jumps block target.name = (image target).name ∧
        linked target (some block.name) (some (image block).name)) ∨
      ∃ passage ∈ after.blocks, passage.name = jumps block target.name ∧
        (∃ jump, passage.instrs = [jump] ∧ jump.action = (Instr.jmp (image target).name).action) ∧
        linked target (some block.name) (some passage.name)

/-- Places in the code of two flow graphs written out: both at the label of a block and its image,
or with the same part of their bodies ahead. -/
inductive Facing (image : Block → Block) (jumps : Block → String → String)
    (linked : Block → Option String → Option String → Prop) :
    Nat → Func.Place → Func.Place → Prop where
  /-- Both are at a label. -/
  | label {block : Block} {source origin : Option String} {label label' : Instr} {state : State}
      (rest rest' : List Instr) (previous previous' : Option String) :
      linked block source origin → label.action = .label block.name →
        label'.action = .label (image block).name →
          Facing image jumps linked 0 ⟨label :: (block.instrs ++ rest), source, previous, state⟩
            ⟨label' :: ((image block).instrs ++ rest'), origin, previous', state⟩
  /-- Both have the end of a block ahead, and what comes before it. -/
  | body {block : Block} {source origin : Option String} {middle : List Instr}
      {terminator : Instr} {state : State} (rest rest' : List Instr)
      (previous previous' : Option String) :
      linked block source origin → middle ++ [terminator] <:+ block.body →
        Facing image jumps linked 0
          ⟨middle ++ [terminator] ++ rest, some block.name, previous, state⟩
          ⟨middle ++ [terminator.mapLabels (jumps block)] ++ rest', some (image block).name,
            previous', state⟩

namespace Rerouted

variable {machine : Machine} {callees : Callees} {graph after : FlowGraph}
  {image : Block → Block} {jumps : Block → String → String}
  {linked : Block → Option String → Option String → Prop} {code code' : List Instr}

/-- Where both runs leave a block, they get to the label of a block and of its image. -/
theorem exists_facing (rerouted : Rerouted graph after image jumps linked)
    (wellFormed : graph.WellFormed) (flat : Flattened graph.blocks code)
    (flat' : Flattened after.blocks code') {block target : Block} {source origin : Option String}
    (isLinked : linked block source origin) (inside : target ∈ graph.blocks)
    (leads : target.name ∈ block.successors) (previous previous' : Option String) (state : State) :
    ∃ here there partner steps, seek target.name code = some here ∧
      seek (jumps block target.name) code' = some there ∧
      Facing image jumps linked 0 ⟨here, some block.name, previous, state⟩ partner ∧
      ∀ fuel, Func.advance machine callees code'
          ⟨there, some (image block).name, previous', state⟩ (fuel + steps) =
        Func.advance machine callees code' partner fuel := by
  obtain ⟨label, rest, isLabel, sought⟩ := flat.exists_seek wellFormed.nodup_names
    (fun block member => (wellFormed.blocks block member).unlabelled) inside
  have atName : ∀ {other}, other ∈ after.blocks → ∃ label rest,
      label.action = .label other.name ∧
        seek other.name code' = some (label :: (other.instrs ++ rest)) :=
    fun member => flat'.exists_seek rerouted.nodup_names rerouted.unlabelled member
  rcases rerouted.onward isLinked inside leads with
    ⟨direct, onward⟩ | ⟨passage, member, same, ⟨jump, isJump, action⟩, onward⟩
  · obtain ⟨label', rest', isLabel', sought'⟩ := atName (rerouted.member onward).2
    exact ⟨_, _, _, 0, sought, direct ▸ sought',
      .label rest rest' previous previous' onward isLabel isLabel', fun _ => rfl⟩
  · -- The other run passes the label of the block in between, and its jump.
    obtain ⟨between, behind, isBetween, soughtBetween⟩ := atName member
    obtain ⟨label', rest', isLabel', sought'⟩ := atName (rerouted.member onward).2
    refine ⟨_, _, _, 1 + 1, sought, same ▸ soughtBetween,
      .label rest rest' previous (some (image block).name) onward isLabel isLabel', fun fuel => ?_⟩
    rw [← Nat.add_assoc, Func.advance_of_step (Func.step_label isBetween), isJump,
      List.singleton_append, Func.advance_of_step (Func.step_jmp action sought')]

/-- The runs of both flow graphs written out go alongside. -/
theorem alongside (rerouted : Rerouted graph after image jumps linked)
    (wellFormed : graph.WellFormed) (flat : Flattened graph.blocks code)
    (flat' : Flattened after.blocks code') :
    Alongside (Func.advance machine callees code) (Func.advance machine callees code')
      (Facing image jumps linked) := by
  intro number left right facing
  cases facing with
  | @label block source origin label label' state rest rest' previous previous' isLinked isLabel
      isLabel' =>
    -- Both runs enter a block: what the merges do is the same.
    have inside := (rerouted.member isLinked).1
    obtain ⟨middle, terminator, body_eq, _⟩ := (wellFormed.blocks block inside).exists_body
    have body_eq' := rerouted.body_eq block inside middle terminator body_eq
    obtain ⟨steps, passes⟩ := @Func.exists_advance_body machine callees code block
      (by simp [body_eq]) label isLabel rest source previous state
    obtain ⟨more, passesToo⟩ := @Func.exists_advance_body machine callees code' (image block)
      (by simp [body_eq']) label' isLabel' rest' origin previous' state
    rw [rerouted.enter_eq isLinked] at passesToo
    cases entered : Instr.enter block.phis source state.env with
    | none =>
      rw [entered] at passes passesToo
      exact .inl ⟨.failed, _, _, passes, passesToo⟩
    | some env =>
      rw [entered, body_eq] at passes
      rw [entered, body_eq'] at passesToo
      exact .inr ⟨0, _, _, _, _,
        .body rest rest' source origin isLinked (body_eq ▸ List.suffix_rfl),
        passes, passesToo, .inl (by omega), .inl (by omega)⟩
  | @body block source origin middle terminator state rest rest' previous previous' isLinked suffix =>
    have inside := (rerouted.member isLinked).1
    have blockFormed := wellFormed.blocks block inside
    obtain ⟨front, body_eq⟩ := suffix
    rw [← List.append_assoc] at body_eq
    obtain ⟨member, checked, ends, successors_eq, goesOn⟩ := blockFormed.of_body_eq body_eq.symm
    have plainly : ∀ instr ∈ front ++ middle ++ [terminator],
        instr.Checked ∧ instr.isLabel = false ∧ instr.isPhi = false := by
      rw [body_eq]
      exact blockFormed.plain_body
    cases middle with
    | nil =>
      -- Both blocks are left, the image to another name.
      obtain ⟨_, notLabel, notPhi⟩ := plainly terminator (by simp)
      have notLabel' := (Instr.isLabel_mapLabels terminator (jumps block)).trans notLabel
      have notPhi' := (Instr.isPhi_mapLabels terminator (jumps block)).trans notPhi
      have ends' := (Instr.isTerminator_mapLabels terminator (jumps block)).trans ends
      have back := Instr.awaits_of_isTerminator ends callees state
      have back' := Instr.awaits_of_isTerminator ends' callees state
      refine Func.alongside_of_exec (Control.relabel (jumps block)) (fun _ => rfl) notLabel notPhi
        notLabel' notPhi' (back'.trans back.symm)
        (Instr.exec_mapLabels machine callees.calls checked ends (jumps block) state)
        fun next control goesOn _ ran ran' => ?_
      cases control with
      | halt value => exact absurd rfl (goesOn value)
      | next => exact absurd rfl (Instr.control_ne_next ends ran)
      | jump target =>
        have leads : target ∈ block.successors := by
          rw [successors_eq, List.mem_eraseDups]
          exact Instr.jump_mem_labels checked ends ran
        obtain ⟨onward, onwardInside, rfl⟩ :=
          List.mem_map.1 (wellFormed.target_mem block inside target leads)
        obtain ⟨here, there, partner, steps, sought, sought', facing, passes⟩ :=
          @exists_facing machine callees _ _ _ _ _ _ _ rerouted wellFormed flat flat' _ _ _ _
            isLinked onwardInside leads previous previous' next
        refine ⟨0, _, partner, 1, steps + 1, facing,
          Func.advance_of_step (Func.step_of_jump notLabel notPhi back ran sought), fun fuel => ?_,
          .inl (by omega), .inl (by omega)⟩
        rw [← Nat.add_assoc, Func.advance_of_step
          (Func.step_of_jump notLabel' notPhi' back' ran' sought'), passes]
    | cons instr middle =>
      -- Both runs run the same instruction, which does not end the block.
      obtain ⟨_, notLabel, notPhi⟩ := plainly instr (by simp)
      refine Func.alongside_of_exec id (fun _ => rfl) notLabel notPhi notLabel notPhi rfl (by simp)
        fun next control _ awaits ran _ => ?_
      obtain rfl := Instr.goes_on (goesOn instr (by simp)) ran
      exact ⟨0, _, _, 1, 1,
        .body rest rest' previous previous' isLinked ⟨front ++ [instr], by simp [← body_eq]⟩,
        Func.advance_of_step (Func.step_of_exec notLabel notPhi awaits ran),
        Func.advance_of_step (Func.step_of_exec notLabel notPhi awaits ran),
        .inl (by omega), .inl (by omega)⟩

/-- Both flow graphs written out come to the same. -/
theorem alike_flatten (rerouted : Rerouted graph after image jumps linked)
    (wellFormed : graph.WellFormed) {function function' : Func}
    (isFlat : graph.flatten = .ok function) (isFlat' : after.flatten = .ok function')
    (machine : Machine) : function'.Alike machine function := by
  intro callees args result
  obtain ⟨flat, _, params_eq, _, _⟩ := exists_flattened isFlat
  obtain ⟨flat', _, params_eq', _, _⟩ := exists_flattened isFlat'
  have sameParams : function'.params = function.params :=
    params_eq'.trans (rerouted.params_eq.trans params_eq.symm)
  unfold Func.ComesTo
  cases bound : bindParams function.params args with
  | none =>
    rw [Func.progress_of_unbound machine callees bound,
      Func.progress_of_unbound machine callees (sameParams.symm ▸ bound)]
  | some env =>
    have runs := Func.progress_of_bound machine callees bound
    have runs' := Func.progress_of_bound machine callees (sameParams.symm ▸ bound)
    -- Both runs start at the label of the first block.
    obtain ⟨first, isFirst, _, _⟩ := wellFormed.exists_entry
    have isFirst' := rerouted.head_eq
    rw [isFirst, Option.map_some] at isFirst'
    obtain ⟨blocks, isBlocks⟩ := List.head?_eq_some_iff.1 isFirst
    obtain ⟨blocks', isBlocks'⟩ := List.head?_eq_some_iff.1 isFirst'
    have alongside := @alongside machine callees _ _ _ _ _ _ _ rerouted wellFormed flat flat'
    have facing : Facing image jumps linked 0 ⟨function.instrs, none, none, { env }⟩
        ⟨function'.instrs, none, none, { env }⟩ := by
      rw [isBlocks] at flat
      rw [isBlocks'] at flat'
      generalize function.instrs = code at flat ⊢
      generalize function'.instrs = code' at flat' ⊢
      cases flat with
      | cons isLabel _ =>
        cases flat' with
        | cons isLabel' _ =>
          exact .label _ _ none none (rerouted.linked_first first isFirst) isLabel isLabel'
    rw [runs, runs']
    exact (alongside.settles_iff (fun _ => rfl) Func.ascends_advance (fun _ => rfl)
      Func.ascends_advance facing).symm

end Rerouted

end FlowGraph

end Midend
