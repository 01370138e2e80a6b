import Midend.Proofs.FlowGraph.Division
import Midend.Proofs.Semantics.Progress

/-! # What a function and its flow graph written out come to

A function without merges and its flow graph written out come to the same: to the same answer, or
both fail, or neither ends. Their runs go alongside (`FlowGraph.Beside.alongside`), from one block to the
next: where the code falls through to a label, the other run jumps there. -/

namespace Midend

namespace FlowGraph

/-! ## Division and layout -/

/-- The code that blocks hold lies over them. -/
theorem laid_of_divided {function : Func} {pieces : List (List Instr)} {blocks : List Block}
    (divided : Divided function pieces blocks)
    (chains : ∀ piece ∈ pieces, piece.IsChain fun instr next => mayFollow instr next) :
    Laid pieces.flatten blocks := by
  induction divided with
  | nil => exact .nil
  | @cons piece block rest later holds _ restIH =>
    obtain ⟨chain, chains⟩ := List.forall_mem_cons.1 chains
    obtain ⟨opening, split, opens, straight⟩ := exists_opening chain
    rw [List.flatten_cons, split, List.append_assoc]
    have atOpening : opening = [] ∨ Opens (some block.name) opening := by
      cases isLabel : (segmentOf piece).1 with
      | none =>
        rw [isLabel] at opens
        exact .inl opens
      | some name =>
        rw [isLabel, ← holds.name_eq name isLabel] at opens
        exact .inr opens
    have last_mem : ∀ last ∈ (segmentOf piece).2.getLast?,
        (segmentOf piece).2 = (segmentOf piece).2.dropLast ++ [last] :=
      fun last isLast => (List.dropLast_append_getLast? last isLast).symm
    -- Either the piece ends by itself, or an end was added behind all of it.
    have instrs_eq := holds.instrs_eq
    split at instrs_eq
    · rename_i isEnd
      obtain ⟨last, isLast, isEnd⟩ := (Option.any_eq_true ..).1 isEnd
      exact .cons atOpening straight.unlabelled (by rw [instrs_eq, List.append_nil])
        (.inl ⟨rfl, _, last, last_mem last isLast, straight.plain, isEnd⟩) (restIH chains)
    · rename_i notEnded
      obtain ⟨key, _, instrs_eq⟩ := instrs_eq
      have plain : ∀ instr ∈ (segmentOf piece).2, instr.isTerminator = false := by
        intro instr member
        rw [Bool.not_eq_true, Option.any_eq_false] at notEnded
        cases isLast : (segmentOf piece).2.getLast? with
        | none =>
          rw [List.getLast?_eq_none_iff.1 isLast] at member
          cases member
        | some last =>
          rw [last_mem last isLast] at member
          rcases List.mem_append.1 member with before | atEnd
          · exact straight.plain instr before
          · rw [List.mem_singleton.1 atEnd]
            exact notEnded last isLast
      exact .cons atOpening straight.unlabelled instrs_eq
        (.inr ⟨plain, _, rfl, by cases later <;> rfl⟩) (restIH chains)

/-! ## Runs -/

/-- The code of a function without merges, and blocks written out of which some hold the code. -/
structure Beside (code flat : List Instr) (held blocks : List Block) : Prop where
  /-- The code lies over the blocks that hold it. -/
  laid : Laid code held
  /-- These are the last ones. -/
  suffix : held <:+ blocks
  /-- All blocks are written out. -/
  flattened : Flattened blocks flat
  /-- Blocks have names of their own. -/
  nodup : (blocks.map Block.name).Nodup
  /-- There is no label in a block. -/
  unlabelled : ∀ block ∈ blocks, ∀ instr ∈ block.instrs, instr.isLabel = false
  /-- There is no merge. -/
  unmerged : ∀ instr ∈ code, instr.isPhi = false
  /-- Instructions are well-formed. -/
  checked : ∀ instr ∈ code, instr.Checked
  /-- Jumps and branches go to labels. -/
  target_mem : ∀ instr ∈ code, instr.isTerminator = true → ∀ target ∈ instr.labels,
    target ∈ Func.labelNames code

/-- An instruction that does not end a block is not what ends the block. -/
theorem Ends.tail {instr : Instr} {instrs ending : List Instr} {later : List Block}
    (ends : Ends (instr :: instrs) ending later) (plain : instr.isTerminator = false) :
    Ends instrs ending later := by
  rcases ends with ⟨rfl, front, terminator, split, straight, isEnd⟩ | ⟨straight, added⟩
  · cases front with
    | nil =>
      rw [(List.cons.inj split).1, isEnd] at plain
      cases plain
    | cons first front =>
      obtain ⟨rfl, rfl⟩ := List.cons.inj split
      exact .inl ⟨rfl, front, terminator, rfl,
        fun other member => straight other (List.mem_cons_of_mem _ member), isEnd⟩
  · exact .inr ⟨fun other member => straight other (List.mem_cons_of_mem _ member), added⟩

/-- Places in the code of a function and in the code written out at which the same instructions of a
block are ahead. The number is that of the later blocks. -/
inductive Abreast (code : List Instr) (blocks : List Block) :
    Nat → Func.Place → Func.Place → Prop where
  /-- The code has the instructions without what was added behind them. -/
  | intro {instrs ending rest flat : List Instr} {later : List Block} {state : State}
      (current previous current' previous' : Option String) :
      (∀ instr ∈ instrs, instr.isLabel = false) → Ends instrs ending later → Laid rest later →
        Flattened later flat → later <:+ blocks → instrs ++ rest <:+ code →
          Abreast code blocks later.length ⟨instrs ++ rest, current, previous, state⟩
            ⟨instrs ++ (ending ++ flat), current', previous', state⟩

namespace Beside

variable {machine : Machine} {callees : Callees} {code flat : List Instr}
  {held blocks : List Block}

/-- From the start of a block both runs get to its first instruction: one passes the label, if there
is one, and the other one is at the label of that name. -/
theorem exists_abreast (beside : Beside code flat held blocks) {target : List Instr} {block : Block}
    {later : List Block} (laid : Laid target (block :: later)) (inCode : target <:+ code)
    (suffix : (block :: later) <:+ blocks) (current previous current' previous' : Option String)
    (state : State) :
    ∃ flatTarget place partner steps, seek block.name flat = some flatTarget ∧
      Abreast code blocks later.length place partner ∧
      (∀ fuel, Func.advance machine callees code ⟨target, current, previous, state⟩ (fuel + steps) =
        Func.advance machine callees code place fuel) ∧
      ∀ fuel, Func.advance machine callees flat ⟨flatTarget, current', previous', state⟩ (fuel + 1) =
        Func.advance machine callees flat partner fuel := by
  obtain ⟨label, rest, isLabel, flattened, sought⟩ :=
    beside.flattened.exists_seek_suffix beside.nodup beside.unlabelled suffix
  have behind : later <:+ blocks := (List.suffix_cons ..).trans suffix
  cases laid with
  | @cons opening instrs ending code' _ _ opens unlabelled instrs_eq ends laid =>
    rw [instrs_eq, List.append_assoc] at sought
    have inCode' : instrs ++ code' <:+ code := (List.suffix_append ..).trans inCode
    -- Without a label the run is there already; the other run passes one in any case.
    rcases opens with rfl | ⟨opener, rfl, isOpener⟩
    · exact ⟨_, _, _, 0, sought,
        .intro current previous (some block.name) current' unlabelled ends laid flattened behind
          inCode', fun _ => rfl, Func.advance_of_step (Func.step_label isLabel)⟩
    · exact ⟨_, _, _, 1, sought,
        .intro (some block.name) current (some block.name) current' unlabelled ends laid flattened
          behind inCode', Func.advance_of_step (Func.step_label isOpener),
        Func.advance_of_step (Func.step_label isLabel)⟩

/-- The runs go alongside. -/
theorem alongside (beside : Beside code flat held blocks) :
    Alongside (Func.advance machine callees code) (Func.advance machine callees flat)
      (Abreast code blocks) := by
  rintro _ _ _ ⟨current, previous, current', previous', unlabelled, ends, laid, flattened, suffix,
    inCode⟩
  rename_i instrs ending rest flatRest later state
  cases instrs with
  | nil =>
    -- The block is through, and only what was added at its end is ahead.
    rcases ends with ⟨_, front, terminator, split, _⟩ | ⟨_, terminator, rfl, action⟩
    · simp at split
    cases later with
    | nil =>
      cases laid
      exact .inl ⟨.done ⟨state.lines, none⟩, 1, 1, Func.advance_of_end rfl,
        Func.advance_of_end (Func.step_ret action)⟩
    | cons next further =>
      obtain ⟨target, place, partner, steps, sought, abreast, passes, passesToo⟩ :=
        @exists_abreast machine callees _ _ _ _ beside _ _ _ laid inCode suffix current previous
          current' previous' state
      refine .inr ⟨_, place, partner, steps, 1 + 1, abreast, passes, fun fuel => ?_,
        .inr (by simp), .inl (by omega)⟩
      rw [← Nat.add_assoc, List.nil_append, List.singleton_append,
        Func.advance_of_step (Func.step_jmp action sought), passesToo]
  | cons instr instrs =>
    -- Both runs run the same instruction.
    have member : instr ∈ code := inCode.subset (by simp)
    have notLabel := unlabelled instr (List.mem_cons_self ..)
    have notPhi := beside.unmerged instr member
    refine Func.alongside_of_exec id (fun _ => rfl) notLabel notPhi notLabel notPhi rfl (by simp)
      fun next control goesOn awaits ran _ => ?_
    cases control with
    | halt value => exact absurd rfl (goesOn value)
    | next =>
      have plain : instr.isTerminator = false := by
        rw [← Bool.not_eq_true]
        exact fun isEnd => Instr.control_ne_next isEnd ran rfl
      exact ⟨later.length, _, _, 1, 1,
        .intro current previous current' previous'
          (fun other inside => unlabelled other (List.mem_cons_of_mem _ inside))
          (ends.tail plain) laid flattened suffix ((List.suffix_cons ..).trans inCode),
        Func.advance_of_step (Func.step_of_exec notLabel notPhi awaits ran),
        Func.advance_of_step (Func.step_of_exec notLabel notPhi awaits ran),
        .inl (by omega), .inl (by omega)⟩
    | jump label =>
      have isEnd : instr.isTerminator = true := by
        rw [← Bool.not_eq_false]
        intro plain
        cases Instr.goes_on plain ran
      -- The label stands in the code, and a block that holds code has its name.
      obtain ⟨target, sought⟩ := exists_seek_of_mem (beside.target_mem instr member isEnd label
        (Instr.jump_mem_labels (beside.checked instr member) isEnd ran))
      obtain ⟨block, behind, laid', rfl, suffix'⟩ := beside.laid.exists_of_seek sought
      obtain ⟨flatTarget, place, partner, steps, sought', abreast, passes, passesToo⟩ :=
        @exists_abreast machine callees _ _ _ _ beside _ _ _ laid' (isSuffix_of_seek sought)
          (suffix'.trans beside.suffix) current previous current' previous' next
      refine ⟨_, place, partner, steps + 1, 1 + 1, abreast, fun fuel => ?_, fun fuel => ?_,
        .inl (by omega), .inl (by omega)⟩
      · rw [← Nat.add_assoc,
          Func.advance_of_step (Func.step_of_jump notLabel notPhi awaits ran sought), passes]
      · rw [← Nat.add_assoc,
          Func.advance_of_step (Func.step_of_jump notLabel notPhi awaits ran sought'), passesToo]

end Beside

/-- The code written out gets to the label of the first block that holds code: it starts there, or
with a block that jumps there. -/
theorem exists_arrival {machine : Machine} {callees : Callees} {rest : List Block}
    {code : List Instr} {entry : Option Block} {first : Block} {state : State}
    (flattened : Flattened (entry.toList ++ first :: rest) code)
    (nodup : ((entry.toList ++ first :: rest).map Block.name).Nodup)
    (unlabelled : ∀ block ∈ entry.toList ++ first :: rest, ∀ instr ∈ block.instrs,
      instr.isLabel = false)
    (leads : ∀ block ∈ entry, ∃ jump, block.instrs = [jump] ∧
      jump.action = (Instr.jmp first.name).action) :
    ∃ current previous count, ∀ target, seek first.name code = some target → ∀ fuel,
      Func.advance machine callees code ⟨code, none, none, state⟩ (fuel + count) =
        Func.advance machine callees code ⟨target, current, previous, state⟩ fuel := by
  cases entry with
  | none =>
    refine ⟨none, none, 0, fun target sought fuel => ?_⟩
    rw [Option.some.inj (sought.symm.trans (flattened.seek_first nodup unlabelled))]
    rfl
  | some block =>
    obtain ⟨jump, isJump, action⟩ := leads block rfl
    cases flattened with
    | @cons _ _ label instrs isLabel _ =>
      refine ⟨some block.name, none, 1 + 1, fun target sought fuel => ?_⟩
      rw [isJump, List.singleton_append] at sought ⊢
      rw [← Nat.add_assoc, Func.advance_of_step (Func.step_label isLabel),
        Func.advance_of_step (Func.step_jmp action sought)]

/-- A function without merges comes to what its flow graph written out comes to. -/
theorem alike_flatten {function flat : Func} {graph : FlowGraph} {log : Log} (machine : Machine)
    (built : build function = .ok (graph, log))
    (unmerged : ∀ instr ∈ function.instrs, instr.isPhi = false)
    (isFlat : graph.flatten = .ok flat) : flat.Alike machine function := by
  intro callees args result
  have builtFrom := builtFrom_of_build built
  obtain ⟨wellFormed, _⟩ := builtFrom.of_unmerged unmerged
  obtain ⟨entry, first, rest, isBlocks, divided, _, leads⟩ :=
    (divides_of_build built).exists_blocks
  obtain ⟨flattened, _, params_eq, _, _⟩ := exists_flattened isFlat
  have laid := laid_of_divided divided fun _ => chain_of_mem_stretches
  rw [flatten_stretches] at laid
  have beside : Beside function.instrs flat.instrs (first :: rest) graph.blocks :=
    { laid, flattened, unmerged
      suffix := by rw [isBlocks]; exact List.suffix_append ..
      nodup := wellFormed.nodup_names
      unlabelled := fun block member => (wellFormed.blocks block member).unlabelled
      checked := builtFrom.checked.instrs
      target_mem := builtFrom.checked.target_mem }
  have sameParams : flat.params = function.params := params_eq.trans builtFrom.params_eq
  cases bound : bindParams function.params args with
  | none =>
    rw [Func.ComesTo, Func.ComesTo, Func.progress_of_unbound machine callees bound,
      Func.progress_of_unbound machine callees (sameParams.symm ▸ bound)]
  | some env =>
    have runs := Func.progress_of_bound machine callees bound
    have flatRuns := Func.progress_of_bound machine callees (sameParams.symm ▸ bound)
    obtain ⟨current, previous, count, arrives⟩ := @exists_arrival machine callees rest
      flat.instrs entry first { env } (isBlocks ▸ flattened) (isBlocks ▸ beside.nodup)
      (isBlocks ▸ beside.unlabelled) fun block isEntry => by
        obtain ⟨_, key, _, isJump⟩ := leads block isEntry
        exact ⟨_, isJump, rfl⟩
    obtain ⟨target, place, partner, steps, sought, abreast, passes, passesToo⟩ :=
      @Beside.exists_abreast machine callees _ _ _ _ beside _ _ _ laid List.suffix_rfl beside.suffix
        none none current previous { env }
    -- The code written out arrives at the label of the block, and then passes it.
    have arrives := fun fuel => (arrives target sought (fuel + 1)).trans (passesToo fuel)
    simp only [Nat.add_assoc] at arrives
    rw [Func.ComesTo, Func.ComesTo, runs, flatRuns, settles_of_shift passes,
      settles_of_shift arrives]
    exact (beside.alongside.settles_iff (fun _ => rfl) Func.ascends_advance (fun _ => rfl)
      Func.ascends_advance abreast).symm

/-- The flow graph of a function divides up its code. If there is no merge, the flow graph written
out comes to what the function comes to, called by itself and in every program: to the same answer,
or both fail, or neither ends. Only keys may run out when it is written out. -/
theorem build_faithful {function : Func} {graph : FlowGraph} {log : Log}
    (built : build function = .ok (graph, log)) :
    Divides function graph ∧
      ((∀ instr ∈ function.instrs, instr.isPhi = false) →
        (∃ flat, graph.flatten = .ok flat ∧
          (∀ machine callees args result, flat.ComesTo machine callees args result ↔
            function.ComesTo machine callees args result) ∧
          ∀ machine (program : Program) name args result,
            (program.replace function flat).ComesTo machine name args result ↔
              program.ComesTo machine name args result) ∨
        (graph.flatten = .error .keysExhausted ∧
          keyLimit ≤ function.maxKey + 2 * function.instrs.length + 6)) := by
  refine ⟨divides_of_build built, fun unmerged => ?_⟩
  have builtFrom := builtFrom_of_build built
  rcases flatten_cases graph with ⟨flat, isFlat⟩ | ⟨failed, many⟩
  · have alike := fun machine => alike_flatten machine built unmerged isFlat
    have name_eq : flat.name = function.name :=
      (exists_flattened isFlat).2.1.trans builtFrom.name_eq
    exact .inl ⟨flat, isFlat, alike, fun machine program name args result =>
      Program.comesTo_replace_iff name_eq (alike machine)⟩
  · have few := builtFrom.length_blocks
    have fewKeys := builtFrom.nextKey_le
    exact .inr ⟨failed, by omega⟩

/-- A function whose first block is jumped to, with code behind the end of a block, a label behind
another one, and no end. -/
def spin : Func where
  name := "spin"
  params := [⟨"again", .bool⟩]
  returnType := none
  instrs := [.label "loop", .br "again" "loop" "done", .effect .nop [] [], .label "spin_0",
    .label "done", .effect .print ["again"] []]
  pos := none

/-- The flow graph of the function divides it up, and comes to the same written out. -/
theorem build_faithful_spin : ∃ graph log flat, build spin = .ok (graph, log) ∧
    Divides spin graph ∧ graph.flatten = .ok flat ∧
      ∀ machine callees args result, flat.ComesTo machine callees args result ↔
        spin.ComesTo machine callees args result := by
  obtain ⟨divides, written⟩ := @build_faithful spin _ _ rfl
  rcases written (by decide) with ⟨flat, isFlat, alike, _⟩ | ⟨_, many⟩
  · exact ⟨_, _, flat, rfl, divides, isFlat, alike⟩
  · exact absurd many (by decide)

/-- A function that returns at once, with the last key but one. -/
def brink : Func where
  name := "brink"
  params := []
  returnType := none
  instrs := [(Instr.ret none).withKey 18446744073709551614]
  pos := none

/-- A function without merges may have a flow graph that is not written out for want of keys. -/
theorem not_build_faithful : ∃ graph log, build brink = .ok (graph, log) ∧
    (∀ instr ∈ brink.instrs, instr.isPhi = false) ∧
    (∀ machine callees, brink.ComesTo machine callees [] (.done ⟨[], none⟩)) ∧
    ¬∃ flat, graph.flatten = .ok flat := by
  refine ⟨_, _, rfl, by decide, fun machine callees => ?_, ?_⟩
  · rw [Func.comesTo_done_iff]
    exact ⟨1, rfl⟩
  · rintro ⟨flat, isFlat⟩
    cases isFlat

end FlowGraph

end Midend
