import Midend.Proofs.FlowGraph.Rebuild

/-! # How a flow graph divides up code

The blocks of the flow graph of a function are the stretches of its code, in order, each with its
label as its name if it has one (`FlowGraph.divides_of_build`). All that is added has new keys: a
block in front that jumps to the first one, where the code leads back to that, and a jump or a
return at the end of each block that has neither. -/

namespace Midend

namespace Func

/-- Keys are not above the largest one. -/
theorem key_le_maxKey {function : Func} {instr : Instr} (member : instr ∈ function.instrs) :
    instr.key ≤ function.maxKey := by
  have general : ∀ (instrs : List Instr) (start : Nat),
      start ≤ instrs.foldl (fun key instr => max key instr.key) start ∧
        ∀ instr ∈ instrs, instr.key ≤ instrs.foldl (fun key instr => max key instr.key) start := by
    intro instrs
    induction instrs with
    | nil => exact fun start => ⟨Nat.le_refl _, nofun⟩
    | cons first rest restIH =>
      intro start
      obtain ⟨above, others⟩ := restIH (max start first.key)
      rw [List.foldl_cons]
      exact ⟨(Nat.le_max_left ..).trans above,
        List.forall_mem_cons.2 ⟨(Nat.le_max_right ..).trans above, others⟩⟩
  exact (general function.instrs 0).2 instr member

/-- A jump or a branch of the function names the label. -/
def Targets (function : Func) (label : String) : Prop :=
  ∃ instr ∈ function.instrs, (instr.op? = some .jmp ∨ instr.op? = some .br) ∧ label ∈ instr.labels

end Func

namespace FlowGraph

/-- What ends a block that does not end itself: a jump to the next block, or a return if there is
none. -/
def closing (later : List Block) : Instr :=
  match later with
  | next :: _ => Instr.jmp next.name
  | [] => Instr.ret none

/-- A block that holds a stretch of the code of a function, in front of other blocks. -/
structure Holds (function : Func) (stretch : List Instr) (block : Block) (later : List Block) :
    Prop where
  /-- A label in front of the stretch is the name of the block. -/
  name_eq : ∀ name, (segmentOf stretch).1 = some name → block.name = name
  /-- Without one, the name of the block is no label of the function. -/
  fresh : (segmentOf stretch).1 = none → block.name ∉ Func.labelNames function.instrs
  /-- The block has the instructions of the stretch, and one with a new key behind them if these do
  not end the block. -/
  instrs_eq :
    if (segmentOf stretch).2.getLast?.any Instr.isTerminator then
      block.instrs = (segmentOf stretch).2
    else ∃ key, function.maxKey < key ∧
      block.instrs = (segmentOf stretch).2 ++ [(closing later).withKey key]

/-- Blocks that hold stretches of the code of a function, one each. -/
inductive Divided (function : Func) : List (List Instr) → List Block → Prop where
  /-- No stretch makes no block. -/
  | nil : Divided function [] []
  /-- A stretch makes a block, and those behind it the later blocks. -/
  | cons {stretch : List Instr} {block : Block} {rest : List (List Instr)} {later : List Block} :
      Holds function stretch block later → Divided function rest later →
        Divided function (stretch :: rest) (block :: later)

/-- A flow graph that divides up the code of a function. -/
structure Divides (function : Func) (graph : FlowGraph) : Prop where
  /-- Without instructions that have new keys, the blocks hold all instructions of the function but
  labels, in order. -/
  instrs_eq : graph.instrs.filter (fun instr => instr.key ≤ function.maxKey) =
    function.instrs.filter fun instr => !instr.isLabel
  /-- Blocks have names of their own. -/
  nodup_names : graph.names.Nodup
  /-- The blocks hold the stretches of the code. One with a new name in front of them jumps to the
  first, if something leads there. -/
  exists_blocks : ∃ (entry : Option Block) (first : Block) (rest : List Block),
    graph.blocks = entry.toList ++ first :: rest ∧
      Divided function (stretches function.instrs) (first :: rest) ∧
      (entry.isSome = true ↔ function.Targets first.name) ∧
      ∀ block ∈ entry, block.name ∉ Func.labelNames function.instrs ∧
        ∃ key, function.maxKey < key ∧ block.instrs = [(Instr.jmp first.name).withKey key]

/-! ## Stretches and blocks -/

/-- Blocks that hold stretches have the instructions of these under the old keys. -/
theorem Divided.filter_eq {function : Func} {pieces : List (List Instr)} {blocks : List Block}
    (divided : Divided function pieces blocks)
    (old : ∀ piece ∈ pieces, ∀ instr ∈ piece, instr.key ≤ function.maxKey) :
    (blocks.flatMap Block.instrs).filter (fun instr => instr.key ≤ function.maxKey) =
      pieces.flatten.filter fun instr => !instr.isLabel := by
  induction divided with
  | nil => rfl
  | @cons piece block rest later holds _ restIH =>
    obtain ⟨here, others⟩ := List.forall_mem_cons.1 old
    rw [List.flatMap_cons, List.filter_append, restIH others, List.flatten_cons,
      List.filter_append]
    congr 1
    -- What a block has from the code has old keys, and what was added to it has a new one.
    have kept : (segmentOf piece).2.filter (fun instr => instr.key ≤ function.maxKey) =
        (segmentOf piece).2 := by
      rw [List.filter_eq_self]
      intro instr member
      exact decide_eq_true (here instr (List.mem_filter.1 member).1)
    have instrs_eq := holds.instrs_eq
    split at instrs_eq
    · rw [instrs_eq, kept]
      rfl
    · obtain ⟨key, new, instrs_eq⟩ := instrs_eq
      rw [instrs_eq, List.filter_append, kept, List.filter_singleton,
        decide_eq_false (by simpa [Instr.withKey] using new)]
      exact List.append_nil _

/-- An instruction that is added to end a block is known by what it does but for its key. -/
theorem Closing.exists_key {nextKey : Nat} {instr : Instr} {later : List Block}
    (closes : Closing nextKey instr) (action : instr.action = (closing later).action) :
    ∃ key, nextKey ≤ key ∧ instr = (closing later).withKey key := by
  obtain ⟨key, low, _, shape⟩ := closes
  refine ⟨key, low, ?_⟩
  have parts : instr = ⟨instr.action, none, key⟩ := by
    rcases shape with ⟨target, rfl⟩ | rfl <;> rfl
  rw [parts, action]
  cases later <;> rfl

/-- Blocks hold the stretches that they were made of, when they are named and their ends are
added. -/
theorem divided_of_ended {function : Func} {pieces : List (List Instr)} {blocks ended : List Block}
    {nextKey : Nat} (new : function.maxKey < nextKey)
    (named : List.Forall₂ (fun segment block => Named segment block ∧
      (segment.1 = none → Numbered function.name (Func.labelNames function.instrs) 0 block))
        (pieces.map segmentOf) blocks)
    (closed : List.Forall₂ (fun block last => last.name = block.name ∧
      ∃ ending, last.instrs = block.instrs ++ ending ∧ ∀ instr ∈ ending, Closing nextKey instr)
        blocks ended)
    (areEnded : Ended blocks ended) : Divided function pieces ended := by
  induction areEnded generalizing pieces with
  | nil =>
    obtain rfl : pieces = [] := by simpa using named
    exact .nil
  | @cons block last blocks later ending name_eq instrs_eq ends _ restIH =>
    cases pieces with
    | nil => cases named
    | cons piece rest =>
      obtain _ | ⟨⟨isNamed, numbered⟩, named⟩ := named
      obtain _ | ⟨⟨_, ending', instrs_eq', closes⟩, closed⟩ := closed
      -- Both descriptions of the block tell of the same end.
      obtain rfl := List.append_cancel_left (instrs_eq.symm.trans instrs_eq')
      refine .cons ⟨fun name isLabel => name_eq.trans (isNamed.2 name isLabel), fun unnamed => ?_,
        ?_⟩ (restIH named closed)
      · obtain ⟨_, _, _, fresh⟩ := numbered unnamed
        rwa [name_eq]
      · rw [isNamed.1] at instrs_eq ends
        rcases ends with ⟨rfl, front, terminator, split, _, isEnd⟩ |
          ⟨plain, terminator, rfl, action⟩
        · rw [if_pos (by rw [split, List.getLast?_concat]; exact isEnd), instrs_eq,
            List.append_nil]
        · have notEnded : ¬(segmentOf piece).2.getLast?.any Instr.isTerminator = true := by
            intro isEnd
            obtain ⟨instr, isLast, isEnd⟩ := (Option.any_eq_true ..).1 isEnd
            rw [plain instr (List.mem_of_getLast? isLast)] at isEnd
            cases isEnd
          have action : terminator.action = (closing later).action :=
            action.trans (by cases later <;> rfl)
          obtain ⟨key, above, rfl⟩ :=
            (closes terminator (List.mem_singleton_self _)).exists_key action
          rw [if_neg notEnded]
          exact ⟨key, by omega, instrs_eq⟩

/-- The code of a function, but for labels, is in the blocks that it is cut into. -/
theorem flatMap_instrs_of_ofSegments {function : Func} {graph : FlowGraph}
    (cutUp : ofSegments function = .ok graph) :
    graph.blocks.flatMap Block.instrs = function.instrs.filter fun instr => !instr.isLabel := by
  obtain ⟨_, rfl⟩ := ofSegments_eq_ok cutUp
  rw [flatMap_instrs_of_named ((forall₂_nameSegments ..).imp fun _ _ facts => facts.1), cut_eq,
    List.flatMap_map]
  nth_rewrite 2 [← flatten_stretches function.instrs]
  rw [List.filter_flatten, List.flatMap_def]
  rfl

/-- An instruction that ends a block ends the block that it is in. -/
theorem Straight.terminator?_eq {block : Block} (straight : Straight block.instrs) {instr : Instr}
    (inside : instr ∈ block.instrs) (ends : instr.isTerminator = true) :
    block.terminator? = some instr := by
  rcases List.eq_nil_or_concat block.instrs with empty | ⟨front, last, split⟩
  · rw [empty] at inside
    cases inside
  · rw [List.concat_eq_append] at split
    rw [split] at inside
    rcases List.mem_append.1 inside with before | isLast
    · have plain := straight.plain instr (by rwa [split, List.dropLast_concat])
      rw [plain] at ends
      cases ends
    · rw [List.mem_singleton.1 isLast] at ends ⊢
      exact Block.terminator?_of_split split ends

/-- Something leads to a label exactly if the function names it in a jump or a branch. -/
theorem targets_iff {function : Func} {graph : FlowGraph} (written : Written function graph)
    (cutUp : ofSegments function = .ok graph) {label : String} :
    function.Targets label ↔ ∃ block ∈ graph.blocks, label ∈ block.successors := by
  constructor
  · rintro ⟨instr, member, op, isLabel⟩
    have ends : instr.isTerminator = true := by
      rw [Instr.isTerminator]
      rcases op with op | op <;> rw [op] <;> rfl
    have inBlocks : instr ∈ graph.blocks.flatMap Block.instrs := by
      rw [flatMap_instrs_of_ofSegments cutUp, List.mem_filter]
      refine ⟨member, ?_⟩
      cases labelled : instr.isLabel with
      | false => rfl
      | true =>
        obtain ⟨name, action⟩ := Instr.exists_of_isLabel labelled
        rw [Instr.op?, action] at op
        rcases op with op | op <;> cases op
    obtain ⟨block, isBlock, inside⟩ := List.mem_flatMap.1 inBlocks
    refine ⟨block, isBlock, ?_⟩
    -- The instruction is the last one of its block.
    have isLast := (written.straight block isBlock).1.terminator?_eq inside ends
    rw [Block.successors, isLast]
    rcases op with op | op <;> simpa [op] using isLabel
  · rintro ⟨block, isBlock, leads⟩
    unfold Block.successors at leads
    split at leads
    · rename_i terminator found
      have inside := (written.straight block isBlock).2 terminator
        (List.mem_of_getLast? (Option.filter_eq_some_iff.1 found).1)
      split at leads
      · exact ⟨terminator, inside, .inl (by assumption), List.mem_eraseDups.1 leads⟩
      · exact ⟨terminator, inside, .inr (by assumption), List.mem_eraseDups.1 leads⟩
      · cases leads
    · cases leads

/-- The blocks of a function, once they are ended, hold its stretches. -/
theorem divided_of_terminate {function : Func} {start graph after : FlowGraph}
    {ended : List Block} {changed : List String} (written : Written function start)
    (cutUp : ofSegments function = .ok start) (new : function.maxKey < graph.nextKey)
    (terminated : graph.terminate start.blocks = .ok (changed, ended, after)) :
    Divided function (stretches function.instrs) ended := by
  have named := forall₂_nameSegments function.name (Func.labelNames function.instrs)
    (cut function.instrs) 0
  have areEnded := ended_of_terminate (fun block member => (written.straight block member).1)
    terminated
  obtain ⟨_, rfl⟩ := ofSegments_eq_ok cutUp
  rw [← (segmented_cut function.instrs).labelNames] at terminated areEnded
  rw [cut_eq] at named
  rw [cut_eq] at terminated areEnded
  exact divided_of_ended new named (terminate_eq_ok terminated).1 areEnded

/-- The first block keeps its name when blocks are ended. -/
theorem exists_first_of_terminate {start graph after : FlowGraph} {ended : List Block}
    {changed : List String} (nonempty : start.blocks ≠ [])
    (terminated : graph.terminate start.blocks = .ok (changed, ended, after)) :
    ∃ first rest, ended = first :: rest ∧ first.name = start.entryName := by
  have names := names_of_terminate terminated
  obtain ⟨original, others, isBlocks⟩ := List.exists_cons_of_ne_nil nonempty
  rw [isBlocks] at names
  cases ended with
  | nil => cases names
  | cons first rest =>
    exact ⟨first, rest, rfl, by rw [(List.cons.inj names).1, entryName, isBlocks]⟩

/-- The flow graph of a function divides up its code. -/
theorem divides_of_build {function : Func} {graph : FlowGraph} {log : Log}
    (built : build function = .ok (graph, log)) : Divides function graph := by
  have nodup := nodup_names_of_build built
  obtain ⟨start, _, entered, _, written, cutUp, added, terminated⟩ := exists_stages_of_build built
  obtain ⟨⟨_, ended, last⟩, done, isGraph⟩ := Attempt.bind_eq_ok.1 terminated
  obtain ⟨_, rfl⟩ := Prod.mk.inj (Except.ok.inj isGraph)
  have old : ∀ piece ∈ stretches function.instrs, ∀ instr ∈ piece,
      instr.key ≤ function.maxKey := by
    intro piece isPiece instr inside
    refine Func.key_le_maxKey ?_
    rw [← flatten_stretches function.instrs]
    exact List.mem_flatten.2 ⟨piece, isPiece, inside⟩
  rcases addEntry_cases added with
    ⟨rfl, unreached⟩ | ⟨name, nextBlock, fresh, _, _, reached, rfl⟩
  · have divided := divided_of_terminate written cutUp (by rw [written.nextKey_eq]; omega) done
    obtain ⟨first, rest, rfl, isEntry⟩ := exists_first_of_terminate written.nonempty done
    refine ⟨?_, nodup, none, first, rest, rfl, divided, ?_, ?_⟩
    · have kept := divided.filter_eq old
      rwa [flatten_stretches] at kept
    · rw [targets_iff written cutUp, isEntry]
      constructor
      · rintro ⟨⟩
      · rintro ⟨block, member, leads⟩
        exact absurd leads (unreached block member)
    · rintro block ⟨⟩
  · -- The new block ends itself.
    have endsItself : (Block.mk name
        [(Instr.jmp start.entryName).withKey start.nextKey]).terminator?.isSome = true := rfl
    unfold terminate at done
    rw [if_pos endsItself] at done
    obtain ⟨⟨_, ended', after⟩, others, done⟩ := Attempt.bind_eq_ok.1 done
    obtain ⟨_, same⟩ := Prod.mk.inj (Except.ok.inj done)
    obtain ⟨rfl, rfl⟩ := Prod.mk.inj same
    have divided := divided_of_terminate written cutUp
      (by dsimp only; rw [written.nextKey_eq]; omega) others
    obtain ⟨first, rest, rfl, isEntry⟩ := exists_first_of_terminate written.nonempty others
    have new : function.maxKey < start.nextKey := by rw [written.nextKey_eq]; omega
    refine ⟨?_, nodup, some _, first, rest, rfl, divided, ?_, ?_⟩
    · have kept := divided.filter_eq old
      rw [flatten_stretches] at kept
      rw [← kept, instrs, List.flatMap_cons, List.filter_append, List.filter_singleton,
        decide_eq_false (by simpa [Instr.withKey] using new)]
      rfl
    · rw [targets_iff written cutUp, isEntry]
      exact ⟨fun _ => reached, fun _ => rfl⟩
    · rintro block ⟨⟩
      exact ⟨fun isLabel => fresh (written.label_mem name isLabel), start.nextKey, new,
        by rw [isEntry]⟩

end FlowGraph

end Midend
