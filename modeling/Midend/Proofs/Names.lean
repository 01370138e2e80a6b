import Midend.FlowGraph.Edit
import Midend.Proofs.FlowGraph.WellFormed
import Midend.Proofs.Fresh

/-! # Names that are not those of temporaries

The way out of single assignment marks the names of its temporaries. `Lasting` variables have no such
mark; numbering a name or marking it as undefined adds none. A flow graph of lasting variables whose
branches lead to two blocks is `FlowGraph.Tame`. -/

namespace Midend

/-- A variable without the mark of a temporary in its name. -/
def Lasting (var : String) : Prop := ¬".tmp".toList <:+: var.toList

instance (var : String) : Decidable (Lasting var) := inferInstanceAs (Decidable ¬_)

/-- A mark does not reach into what is put behind a name, if its last character is not there. -/
theorem infix_of_infix_append {mark name more : List Char} {last : Char} (absent : last ∉ more)
    (inside : mark ++ [last] <:+: name ++ more) : mark ++ [last] <:+: name := by
  obtain ⟨before, after, same⟩ := inside
  rcases List.append_eq_append_iff.1 same with ⟨rest, name_eq, _⟩ | ⟨rest, mark_eq, more_eq⟩
  · exact ⟨before, rest, name_eq.symm⟩
  · rcases List.eq_nil_or_concat rest with rfl | ⟨front, char, rfl⟩
    · exact ⟨before, [], by simpa using mark_eq⟩
    · rw [List.concat_eq_append, ← List.append_assoc, ← List.append_assoc] at mark_eq
      obtain rfl := (List.cons.inj (List.append_inj' mark_eq rfl).2).1
      exact absurd (by rw [more_eq]; simp) absent

namespace Lasting

/-- A name stays lasting if what is put behind it has no `p`. -/
theorem append {var more : String} (lasting : Lasting var) (absent : 'p' ∉ more.toList) :
    Lasting (var ++ more) := fun inside => by
  rw [String.toList_append] at inside
  exact lasting (@infix_of_infix_append ".tm".toList _ _ _ absent inside)

/-- A name without a dot is lasting. -/
theorem of_no_dot {var : String} (absent : '.' ∉ var.toList) : Lasting var := fun inside =>
  absent (inside.subset (by decide))

/-- A numbered name is lasting. -/
theorem numbered {stem : String} (lasting : Lasting stem) (number : Nat) :
    Lasting (numbered stem "." number) := by
  refine (lasting.append (by decide)).append fun member => ?_
  have isDigit := Nat.isDigit_of_mem_toDigits (b := 10) (n := number) (by decide) (by decide)
    (by rw [← Nat.toList_repr]; exact member)
  exact absurd isDigit (by decide)

/-- A new name for a lasting one is lasting. -/
theorem fresh {stem : String} (lasting : Lasting stem) (supply : NameSupply) :
    Lasting (supply.fresh stem).1 := lasting.numbered _

end Lasting

/-- Temporaries do not last. -/
theorem not_lasting_numbered (stem : String) (number : Nat) :
    ¬Lasting (numbered (stem ++ ".tmp") "." number) := by
  refine not_not.2 ⟨stem.toList, '.' :: (toString number).toList, ?_⟩
  simp [numbered]

namespace Instr

/-- An instruction that reads and writes lasting variables and, if it branches, leads to two
blocks. -/
structure Tame (instr : Instr) : Prop where
  /-- It reads lasting variables. -/
  args : ∀ arg ∈ instr.args, Lasting arg
  /-- It writes a lasting variable. -/
  dest : ∀ dest, instr.dest? = some dest → Lasting dest
  /-- It names different labels if it is a branch. -/
  labels : instr.op? = some .br → instr.labels.Nodup

namespace Tame

variable {instr : Instr}

/-- The instruction reads other variables. -/
theorem withArgs (tame : instr.Tame) {args : List String} (lasting : ∀ arg ∈ args, Lasting arg) :
    Tame { instr with
      action := instr.action.mapOperands fun operands => { operands with args } } := by
  obtain ⟨action, pos, key⟩ := instr
  cases action with
  | const dest ty literal => exact tame
  | compute op dest ty operands => exact ⟨lasting, tame.dest, tame.labels⟩
  | effect op operands => exact ⟨lasting, tame.dest, tame.labels⟩
  | label name => exact tame

/-- Other names for the variables read. -/
theorem mapArgs (tame : instr.Tame) {change : String → String}
    (keeps : ∀ var, Lasting var → Lasting (change var)) : (instr.mapArgs change).Tame := by
  refine ⟨fun arg member => ?_, by simpa using tame.dest, by simpa using tame.labels⟩
  rw [args_mapArgs] at member
  obtain ⟨var, isArg, rfl⟩ := List.mem_map.1 member
  exact keeps var (tame.args var isArg)

/-- Another name for the variable written. -/
theorem mapDest (tame : instr.Tame) {change : String → String}
    (keeps : ∀ dest, instr.dest? = some dest → Lasting (change dest)) :
    (instr.mapDest change).Tame := by
  refine ⟨by simpa using tame.args, fun dest isDest => ?_, by simpa using tame.labels⟩
  rw [dest?_mapDest] at isDest
  obtain ⟨var, isVar, rfl⟩ := Option.map_eq_some_iff.1 isDest
  exact keeps var isVar

/-- The instruction becomes a constant. -/
theorem const {image : Instr} {dest : String} {ty : Ty} {literal : Literal} (lasting : Lasting dest)
    (isConst : image.action = .const dest ty literal) : image.Tame := by
  rw [show image = ⟨.const dest ty literal, image.pos, image.key⟩ by rw [← isConst]]
  exact ⟨nofun, fun other isDest => Option.some.inj isDest ▸ lasting, nofun⟩

/-- The instruction becomes a value without labels. -/
theorem compute {image : Instr} {op : Opcode} {dest : String} {ty : Ty} {args labels : List String}
    (lasting : Lasting dest) (areLasting : ∀ arg ∈ args, Lasting arg) (notBranch : op ≠ .br)
    (isCompute : image.action = .compute op dest ty { args, labels }) : image.Tame := by
  rw [show image = ⟨.compute op dest ty { args, labels }, image.pos, image.key⟩ by rw [← isCompute]]
  exact ⟨areLasting, fun other isDest => Option.some.inj isDest ▸ lasting,
    fun isBranch => absurd (Option.some.inj isBranch) notBranch⟩

end Tame

end Instr

namespace FlowGraph

/-- A flow graph of lasting variables whose branches lead to two blocks. -/
structure Tame (graph : FlowGraph) : Prop where
  /-- The parameters are lasting. -/
  params : ∀ param ∈ graph.paramNames, Lasting param
  /-- The instructions read and write lasting variables. -/
  instrs : ∀ instr ∈ graph.instrs, instr.Tame

/-- A flow graph with other instructions. -/
theorem Tame.of_instrs {graph after : FlowGraph} (tame : graph.Tame)
    (params_eq : after.params = graph.params) (instrs : ∀ instr ∈ after.instrs, instr.Tame) :
    after.Tame := ⟨by rw [paramNames, params_eq]; exact tame.params, instrs⟩

/-- The instructions of a block are tame. -/
theorem Tame.of_mem {graph : FlowGraph} (tame : graph.Tame) {block : Block}
    (member : block ∈ graph.blocks) {instr : Instr} (inside : instr ∈ block.instrs) : instr.Tame :=
  tame.instrs instr (List.mem_flatMap.2 ⟨block, member, inside⟩)

/-- A flow graph with the blocks of another one that takes no key, adds no instruction and stays
tame. -/
structure Modest (graph after : FlowGraph) : Prop where
  /-- The blocks have the same names. -/
  names_eq : after.names = graph.names
  /-- The parameters are the same. -/
  params_eq : after.params = graph.params
  /-- No key is taken. -/
  nextKey_eq : after.nextKey = graph.nextKey
  /-- There are no more instructions. -/
  length_instrs : after.instrs.length ≤ graph.instrs.length
  /-- It stays tame. -/
  tame : graph.Tame → after.Tame

namespace Modest

variable {graph middle after : FlowGraph}

/-- Nothing is changed. -/
theorem refl (graph : FlowGraph) : Modest graph graph := ⟨rfl, rfl, rfl, Nat.le_refl _, id⟩

/-- Two changes in a row. -/
theorem trans (first : Modest graph middle) (second : Modest middle after) : Modest graph after :=
  ⟨second.names_eq.trans first.names_eq, second.params_eq.trans first.params_eq,
    second.nextKey_eq.trans first.nextKey_eq, second.length_instrs.trans first.length_instrs,
    fun tame => second.tame (first.tame tame)⟩

/-- A block gets no more instructions than it had. -/
theorem modifyBlock (modest : Modest graph middle) (nodup : graph.names.Nodup) {name : String}
    {change : Block → Block}
    (changed : ∀ block ∈ middle.blocks, block.name = name → (change block).name = name ∧
      (change block).instrs.length ≤ block.instrs.length ∧
      (graph.Tame → (∀ instr ∈ block.instrs, instr.Tame) →
        ∀ instr ∈ (change block).instrs, instr.Tame)) :
    Modest graph (middle.modifyBlock name change) := by
  refine ⟨?_, modest.params_eq, modest.nextKey_eq, ?_, fun tame => ?_⟩
  · rw [← modest.names_eq, names, names, FlowGraph.modifyBlock, List.map_map]
    refine List.map_congr_left fun block member => ?_
    rw [Function.comp_apply]
    split
    · rename_i same
      exact (changed block member same).1.trans same.symm
    · rfl
  · refine le_trans ?_ modest.length_instrs
    rw [← modest.names_eq] at nodup
    exact @length_instrs_map _ nodup name change 0 fun block member same =>
      (changed block member same).2.1
  · have tameMiddle := modest.tame tame
    exact tameMiddle.of_instrs rfl (forall_instrs_map name change tameMiddle.instrs
      fun block member same => (changed block member same).2.2 tame fun _ => tameMiddle.of_mem member)

end Modest

end FlowGraph

end Midend
