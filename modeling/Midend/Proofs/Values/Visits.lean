import Midend.Proofs.Dominance.Walk
import Midend.Proofs.Values.Bodies
import Midend.Proofs.Values.Merges

/-! # Visits of global value numbering

The walk down the dominator tree numbers each block once, and afterwards passes its values on to the
merges of its successors. `GlobalNumbering.Walked` says what the finished flow graph is made of:
each block has the merges that were kept, with canonical variables for all their values, the
instructions in the place of the others, and its numbered body. -/

namespace Midend

namespace GlobalNumbering

open ValueTable (Extends Bound)

/-! ## Merges with canonical variables -/

/-- The variable that stands for the value of another one. -/
def canonical (table : ValueTable) (arg : String) : String :=
  ((table.numberOf? arg).bind table.canonical?).getD arg

/-- A merge in which the values from some blocks are replaced. -/
def mapIncoming (change : String → String → String) (phi : Instr) : Instr :=
  { phi with
    action := phi.action.mapOperands fun operands =>
      { operands with args := phi.incoming.map fun pair => change pair.1 pair.2 } }

/-- What is taken from a block: a canonical variable if the block was visited. -/
def takenFrom (outs : String → ValueTable) (done : List String) (label arg : String) : String :=
  if label ∈ done then canonical (outs label) arg else arg

/-- A merge that takes canonical variables from visited blocks. -/
def resolve (outs : String → ValueTable) (done : List String) (phi : Instr) : Instr :=
  mapIncoming (takenFrom outs done) phi

section Incoming

variable {change : String → String → String} {phi : Instr}

@[simp] theorem isPhi_mapIncoming : (mapIncoming change phi).isPhi = phi.isPhi := by
  unfold mapIncoming Instr.isPhi
  cases phi.action with
  | compute op dest ty operands => cases op <;> rfl
  | _ => rfl

@[simp] theorem dest?_mapIncoming : (mapIncoming change phi).dest? = phi.dest? := by
  unfold mapIncoming Instr.dest?
  cases phi.action <;> rfl

@[simp] theorem labels_mapIncoming : (mapIncoming change phi).labels = phi.labels := by
  unfold mapIncoming Instr.labels
  cases phi.action <;> rfl

/-- The values of a changed merge. -/
theorem args_mapIncoming (isPhi : phi.isPhi = true) :
    (mapIncoming change phi).args = phi.incoming.map fun pair => change pair.1 pair.2 := by
  obtain ⟨dest, ty, operands, isAction⟩ := Instr.exists_of_isPhi isPhi
  rw [mapIncoming, Instr.args, isAction]
  rfl

/-- Labels in step with values that are made from the labels and other values. -/
theorem zip_map_zip {α β γ : Type} (change : α × β → γ) (keys : List α) (values : List β) :
    keys.zip ((keys.zip values).map change) =
      (keys.zip values).map fun pair => (pair.1, change pair) := by
  induction keys generalizing values with
  | nil => rfl
  | cons key keys keysIH =>
    cases values with
    | nil => rfl
    | cons value values => rw [List.zip_cons_cons, List.map_cons, List.zip_cons_cons, keysIH]; rfl

/-- The labelled values of a changed merge. -/
theorem incoming_mapIncoming (isPhi : phi.isPhi = true) :
    (mapIncoming change phi).incoming =
      phi.incoming.map fun pair => (pair.1, change pair.1 pair.2) := by
  rw [Instr.incoming, args_mapIncoming isPhi, labels_mapIncoming, Instr.incoming]
  exact zip_map_zip (fun pair => change pair.1 pair.2) _ _

/-- What a changed merge takes from a block. -/
theorem lookup_mapIncoming (isPhi : phi.isPhi = true) (source : String) :
    (mapIncoming change phi).incoming.lookup source =
      (phi.incoming.lookup source).map (change source) := by
  rw [incoming_mapIncoming isPhi]
  generalize phi.incoming = incoming
  induction incoming with
  | nil => rfl
  | cons pair rest restIH =>
    rw [List.map_cons, List.lookup_cons, List.lookup_cons, restIH]
    cases isSource : source == pair.1 with
    | true => rw [beq_iff_eq.1 isSource]; rfl
    | false => rfl

/-- A changed merge has a value for every label. -/
theorem length_mapIncoming (isPhi : phi.isPhi = true) (length : phi.args.length = phi.labels.length) :
    (mapIncoming change phi).args.length = phi.args.length := by
  rw [args_mapIncoming isPhi, List.length_map, Instr.incoming, List.length_zip, length, Nat.min_self]

/-- A changed merge is as well-formed. -/
theorem checked_mapIncoming (checked : phi.Checked) (isPhi : phi.isPhi = true)
    (length : phi.args.length = phi.labels.length) : (mapIncoming change phi).Checked := by
  refine Instr.checked_of_args checked (phi.incoming.map fun pair => change pair.1 pair.2) ?_ rfl
  rw [← args_mapIncoming isPhi, length_mapIncoming isPhi length]

/-- Two changes in a row. -/
theorem mapIncoming_mapIncoming (other : String → String → String) (isPhi : phi.isPhi = true) :
    mapIncoming other (mapIncoming change phi) =
      mapIncoming (fun label arg => other label (change label arg)) phi := by
  have incoming : (mapIncoming change phi).incoming.map (fun pair => other pair.1 pair.2) =
      phi.incoming.map fun pair => other pair.1 (change pair.1 pair.2) := by
    rw [incoming_mapIncoming isPhi, List.map_map]
    rfl
  obtain ⟨dest, ty, operands, isAction⟩ := Instr.exists_of_isPhi isPhi
  unfold mapIncoming at incoming ⊢
  rw [incoming]
  simp only [isAction, Action.mapOperands]

/-- Changes that are the same for all labels of a merge. -/
theorem mapIncoming_congr {other : String → String → String}
    (same : ∀ label ∈ phi.labels, ∀ arg, other label arg = change label arg) :
    mapIncoming other phi = mapIncoming change phi := by
  have incoming : phi.incoming.map (fun pair => other pair.1 pair.2) =
      phi.incoming.map fun pair => change pair.1 pair.2 :=
    List.map_congr_left fun pair member => same _ (List.of_mem_zip member).1 _
  unfold mapIncoming
  rw [incoming]

/-- A change that changes nothing. -/
theorem mapIncoming_self (isPhi : phi.isPhi = true)
    (length : phi.args.length = phi.labels.length) :
    mapIncoming (fun _ arg => arg) phi = phi := by
  have args : phi.incoming.map Prod.snd = phi.args := by
    rw [Instr.incoming, List.map_snd_zip]
    omega
  obtain ⟨dest, ty, operands, isAction⟩ := Instr.exists_of_isPhi isPhi
  obtain ⟨action, pos, key⟩ := phi
  obtain rfl : action = _ := isAction
  unfold mapIncoming
  rw [args]
  rfl

end Incoming

/-- Merges take canonical variables from one more block. -/
theorem resolve_append {outs : String → ValueTable} {done : List String} {name : String}
    {phi : Instr} (isPhi : phi.isPhi = true) (isNew : name ∉ done) :
    mapIncoming (fun label arg => if label = name then canonical (outs name) arg else arg)
      (resolve outs done phi) = resolve outs (done ++ [name]) phi := by
  rw [resolve, mapIncoming_mapIncoming _ isPhi, resolve]
  refine mapIncoming_congr fun label _ arg => ?_
  unfold takenFrom
  by_cases isName : label = name
  · subst isName
    simp [isNew]
  · simp [isName]

/-- Merges that take nothing from a block stay as they are when it is visited. -/
theorem resolve_of_notMem {outs : String → ValueTable} {done : List String} {name : String}
    {phi : Instr} (absent : name ∉ phi.labels) :
    resolve outs (done ++ [name]) phi = resolve outs done phi := by
  refine mapIncoming_congr fun label isLabel arg => ?_
  have apart : label ≠ name := fun same => absent (same ▸ isLabel)
  simp [takenFrom, apart]

/-! ## Passing values on -/

/-- What a block passes on to labelled values. -/
theorem propagateInto_eq (place : Place) (table : ValueTable) (target : String)
    (incoming : List (String × String)) :
    (propagateInto place table target incoming).1 = incoming.map fun pair =>
      (pair.1, if pair.1 = place.block then canonical table pair.2 else pair.2) := by
  induction incoming with
  | nil => rfl
  | cons pair rest restIH =>
    rw [propagateInto, List.map_cons, ← restIH]
    rfl

/-- What a block passes on to merges that have a value for every label. -/
theorem propagateToPhis_eq (place : Place) (table : ValueTable) (target : String)
    {phis : List Instr} (lengths : ∀ phi ∈ phis, phi.args.length = phi.labels.length) :
    (propagateToPhis place table target phis).1 = phis.map (mapIncoming fun label arg =>
      if label = place.block then canonical table arg else arg) := by
  induction phis with
  | nil => rfl
  | cons phi rest restIH =>
    have length := lengths phi (List.mem_cons_self ..)
    have noMore : phi.args.drop phi.incoming.length = [] := by
      rw [List.drop_eq_nil_iff, Instr.incoming, List.length_zip]
      omega
    have args : (propagateInto place table target phi.incoming).1.map Prod.snd ++
        phi.args.drop (propagateInto place table target phi.incoming).1.length =
        phi.incoming.map fun pair =>
          if pair.1 = place.block then canonical table pair.2 else pair.2 := by
      rw [propagateInto_eq, List.length_map, noMore, List.append_nil, List.map_map]
      rfl
    rw [propagateToPhis, List.map_cons,
      ← restIH fun other member => lengths other (List.mem_cons_of_mem _ member), mapIncoming, ← args]

/-- A block whose merges take canonical variables from another block. -/
def receive (source : String) (table : ValueTable) (block : Block) : Block :=
  { block with
    instrs := block.phis.map (mapIncoming fun label arg =>
      if label = source then canonical table arg else arg) ++ block.body }

/-- A block in which merges stand in front and have a value for every label. -/
def Tidy (block : Block) : Prop :=
  (∀ instr ∈ block.body, instr.isPhi = false) ∧
    ∀ phi ∈ block.phis, phi.args.length = phi.labels.length

/-- The parts of a block that receives values. -/
theorem phis_receive (source : String) (table : ValueTable) {block : Block} (tidy : Tidy block) :
    (receive source table block).phis = block.phis.map (mapIncoming fun label arg =>
        if label = source then canonical table arg else arg) ∧
      (receive source table block).body = block.body := by
  refine Block.phis_of_split rfl (fun phi member => ?_) tidy.1
  obtain ⟨original, inside, rfl⟩ := List.mem_map.1 member
  rw [isPhi_mapIncoming]
  exact Block.isPhi_of_mem_phis inside

/-- A block that receives values stays tidy. -/
theorem Tidy.receive (source : String) (table : ValueTable) {block : Block} (tidy : Tidy block) :
    Tidy (receive source table block) := by
  obtain ⟨phis_eq, body_eq⟩ := phis_receive source table tidy
  rw [Tidy, phis_eq, body_eq]
  refine ⟨tidy.1, fun phi member => ?_⟩
  obtain ⟨original, inside, rfl⟩ := List.mem_map.1 member
  have length := tidy.2 original inside
  rw [labels_mapIncoming, length_mapIncoming (Block.isPhi_of_mem_phis inside) length, length]

/-- A block passes its values on to the merges of other blocks. -/
theorem propagate_eq (place : Place) (table : ValueTable) {targets : List String}
    (distinct : targets.Nodup) {graph : FlowGraph} (nodup : graph.names.Nodup)
    (tidy : ∀ block ∈ graph.blocks, Tidy block) :
    (propagate place table targets graph).1 = { graph with
      blocks := graph.blocks.map fun block =>
        if block.name ∈ targets then receive place.block table block else block } := by
  induction targets generalizing graph with
  | nil =>
    obtain ⟨name, params, returnType, pos, blocks, nextKey, nextBlock⟩ := graph
    simp [propagate]
  | cons target rest restIH =>
    rw [List.nodup_cons] at distinct
    rw [propagate]
    cases found : graph.find? target with
    | none =>
      dsimp only
      rw [restIH distinct.2 nodup tidy]
      congr 1
      refine List.map_congr_left fun block member => ?_
      have apart : block.name ≠ target := fun same => by
        rw [(FlowGraph.find?_eq_some_iff nodup).2 ⟨member, same⟩] at found
        cases found
      simp [apart]
    | some block =>
      dsimp only
      obtain ⟨member, isTarget⟩ := (FlowGraph.find?_eq_some_iff nodup).1 found
      rw [propagateToPhis_eq place table target (tidy block member).2]
      -- The block found is the only one of its name.
      have modified : graph.modifyBlock target (fun other =>
          { other with
            instrs := block.phis.map (mapIncoming fun label arg =>
              if label = place.block then canonical table arg else arg) ++ other.body }) =
          graph.modifyBlock target (receive place.block table) := by
        unfold FlowGraph.modifyBlock
        congr 1
        refine List.map_congr_left fun other inside => ?_
        split
        · rename_i sameName
          rw [List.inj_on_of_nodup_map nodup inside member (sameName.trans isTarget.symm), receive]
        · rfl
      have names_eq := FlowGraph.names_modifyBlock graph (receive place.block table) (fun _ => rfl)
        target
      have tidyNext : ∀ other ∈ (graph.modifyBlock target (receive place.block table)).blocks,
          Tidy other := by
        intro other inside
        obtain ⟨original, isOriginal, rfl⟩ := List.mem_map.1 inside
        split
        · exact (tidy original isOriginal).receive place.block table
        · exact tidy original isOriginal
      rw [modified, restIH distinct.2 (names_eq ▸ nodup) tidyNext]
      simp only [FlowGraph.modifyBlock, List.map_map]
      congr 1
      refine List.map_congr_left fun other inside => ?_
      rw [Function.comp_apply]
      by_cases sameName : other.name = target
      · have notRest : (receive place.block table other).name ∉ rest := by
          change other.name ∉ rest
          rw [sameName]
          exact distinct.1
        rw [if_pos sameName, if_neg notRest, if_pos (sameName ▸ List.mem_cons_self ..)]
      · simp [sameName]

/-! ## Visits -/

/-- What a visit of a block leaves behind. -/
structure Record where
  /-- The values from above. -/
  inherited : ValueTable
  /-- The values at the end of the block. -/
  out : ValueTable

instance : Inhabited Record := ⟨⟨{}, {}⟩⟩

/-- A visit of a block, behind what was reported before. -/
def visit (name : String) (table : ValueTable) (state : FlowGraph × Log) :
    Except Error (ValueTable × FlowGraph × Log) :=
  let visited := visitBlock name table state.1
  .ok (visited.2.1, visited.1, state.2 ++ visited.2.2)

/-- What a visit does, with its record. -/
structure Visited (name : String) (table : ValueTable) (state : FlowGraph × Log) (record : Record)
    (next : FlowGraph × Log) : Prop where
  /-- The values from above. -/
  inherited_eq : record.inherited = table
  /-- The values at the end. -/
  out_eq : (visitBlock name table state.1).2.1 = record.out
  /-- The changed flow graph. -/
  next_eq : (visitBlock name table state.1).1 = next.1
  /-- The reports. -/
  log_eq : next.2 = state.2 ++ (visitBlock name table state.1).2.2

mutual

/-- Numbering the blocks of a tree is a walk. -/
theorem walk_visit (tree : Dominance.Tree) (table : ValueTable) (graph : FlowGraph) (log : Log) :
    tree.walk visit table (graph, log) =
      .ok ((visitTree tree table graph).1, log ++ (visitTree tree table graph).2) := by
  match tree with
  | .node name children =>
    rw [Dominance.Tree.walk, visitTree, ← List.append_assoc]
    exact walkAll_visit children _ _ _

/-- Numbering the blocks of several trees is a walk. -/
theorem walkAll_visit (trees : List Dominance.Tree) (table : ValueTable) (graph : FlowGraph)
    (log : Log) : Dominance.Tree.walkAll visit trees table (graph, log) =
      .ok ((visitTrees trees table graph).1, log ++ (visitTrees trees table graph).2) := by
  match trees with
  | [] =>
    rw [Dominance.Tree.walkAll, visitTrees, List.append_nil]
  | tree :: rest =>
    rw [Dominance.Tree.walkAll, walk_visit tree, visitTrees, ← List.append_assoc]
    exact walkAll_visit rest _ _ _

end

section Stages

variable (graph : FlowGraph) (records : String → Record) (earlier : List String) (block : Block)

/-- The values at the ends of blocks. -/
def outs (name : String) : ValueTable := (records name).out

/-- Where the changes of a block take place. -/
def placeOf : Place := ⟨graph.name, block.name, passName⟩

/-- The merges of a block, numbered with what was passed on before. -/
def numberedPhis : List Instr × ValueTable × Log :=
  numberAll (numberPhi (placeOf graph block)) (block.phis.map (resolve (outs records) earlier))
    (records block.name).inherited

/-- The body of a block, numbered behind the merges. -/
def numberedInstrs : List Instr × ValueTable × Log :=
  numberAll (Numbering.numberInstr (placeOf graph block)) block.body
    (numberedPhis graph records earlier block).2.1

/-- What stands in the places of merges. -/
def replacedPhis : List Instr :=
  (numberedPhis graph records earlier block).1.filter fun instr => !instr.isPhi

end Stages

/-- A block that starts with some of its merges, which take canonical variables from visited
blocks. -/
structure Fronted (records : String → Record) (done : List String) (block current : Block)
    (phis tail : List Instr) : Prop where
  /-- The name stays. -/
  name_eq : current.name = block.name
  /-- The merges stand in front. -/
  instrs_eq : current.instrs = phis.map (resolve (outs records) done) ++ tail
  /-- They are merges of the block. -/
  sublist : phis.Sublist block.phis
  /-- There is no merge behind them. -/
  plain : ∀ instr ∈ tail, instr.isPhi = false

/-- A block that was visited: what its merges became, and its numbered body. -/
structure Imaged (graph : FlowGraph) (records : String → Record) (done earlier : List String)
    (kept : List Instr) (block current : Block) : Prop where
  /-- What was passed on before the visit came from visited blocks. -/
  subset : ∀ name ∈ earlier, name ∈ done
  /-- The merges that were kept. -/
  kept_eq : (numberedPhis graph records earlier block).1.filter Instr.isPhi =
    kept.map (resolve (outs records) earlier)
  /-- The values at the end. -/
  out_eq : (records block.name).out = (numberedInstrs graph records earlier block).2.1
  /-- The block as it is. -/
  fronted : Fronted records done block current kept
    (replacedPhis graph records earlier block ++ (numberedInstrs graph records earlier block).1)

/-- A block while the walk is on. -/
structure Stage (graph : FlowGraph) (records : String → Record) (done : List String)
    (block current : Block) : Prop where
  /-- Before the visit only the values of merges change. -/
  waiting : block.name ∉ done → Fronted records done block current block.phis block.body
  /-- After the visit the block is numbered. -/
  visited : block.name ∈ done → ∃ earlier kept, Imaged graph records done earlier kept block current

/-- What holds of the record of a visited block, whatever a run does. -/
structure Settled (graph : FlowGraph) (name : String) (record : Record) : Prop where
  /-- What has a number above the block is available in front of it. -/
  inherited_available : ∀ var, record.inherited.Bound var → Ssa.Available graph name [] var
  /-- Values from above are held. -/
  inherited_held : record.inherited.Held
  /-- No merge of the block has a number yet. -/
  inherited_phis : ∀ incoming, record.inherited.exprs.get? (.phi name incoming) = none
  /-- What has a number at the end is available there. -/
  out_available : ∀ var, record.out.Bound var → Ssa.AvailableAtEnd graph name var
  /-- Values at the end are held. -/
  out_held : record.out.Held
  /-- Merges with numbers belong to blocks above. -/
  out_phis : ∀ other incoming number, record.out.exprs.get? (.phi other incoming) = some number →
    graph.Dominates other name

/-- What holds while the walk is on, with the blocks visited so far. -/
structure Progress (graph : FlowGraph) (records : String → Record) (done : List String)
    (state : FlowGraph) : Prop where
  /-- The function keeps its name. -/
  name_eq : state.name = graph.name
  /-- The parameters stay. -/
  params_eq : state.params = graph.params
  /-- Each block is at its stage. -/
  blocks : List.Forall₂ (Stage graph records done) graph.blocks state.blocks
  /-- Visited blocks are settled. -/
  settled : ∀ name ∈ done, Settled graph name (records name)

/-! ## What a visit does to its block -/

section Visit

variable {graph : FlowGraph} {records : String → Record} {block : Block}

/-- What is available in a block is available at its end. -/
theorem availableAtEnd_of_available (member : block ∈ graph.blocks)
    (reachable : graph.Reachable block.name) {before : List Instr} {var : String}
    (inside : ∀ dest ∈ before.filterMap Instr.dest?, dest ∈ block.defs)
    (available : Ssa.Available graph block.name before var) :
    Ssa.AvailableAtEnd graph block.name var := by
  rcases available with isParam | inBlock | ⟨upper, upperMember, written, _, dominates⟩ | nowhere
  · exact .inl isParam
  · exact .inr (.inl ⟨block, member, inside var inBlock, .refl reachable⟩)
  · exact .inr (.inl ⟨upper, upperMember, written, dominates⟩)
  · exact .inr (.inr nowhere)

/-- Merges write what they wrote when their values are replaced. -/
theorem dests_resolve (outs : String → ValueTable) (done : List String) (phis : List Instr) :
    (phis.map (resolve outs done)).filterMap Instr.dest? = phis.filterMap Instr.dest? := by
  rw [List.filterMap_map]
  congr 1
  funext phi
  exact dest?_mapIncoming

/-- What the merges of a block write has no number above it. -/
theorem not_bound_of_phi (inSsa : Ssa.InSsa graph) (member : block ∈ graph.blocks)
    {table : ValueTable}
    (available : ∀ var, table.Bound var → Ssa.Available graph block.name [] var) {dest : String}
    (isDest : dest ∈ block.defs) : ¬table.Bound dest := by
  intro isBound
  obtain ⟨instr, inside, isDest⟩ := List.mem_filterMap.1 isDest
  obtain ⟨before, rest, split⟩ := List.append_of_mem inside
  exact inSsa.not_available member split isDest ((available dest isBound).mono (by simp))

/-- How the merges of a block are numbered. -/
theorem merged_of_available (inSsa : Ssa.InSsa graph) (member : block ∈ graph.blocks)
    (available : ∀ var, (records block.name).inherited.Bound var →
      Ssa.Available graph block.name [] var) (earlier : List String) :
    Merged block.name (records block.name).inherited (block.phis.map (resolve (outs records) earlier))
      (numberedPhis graph records earlier block).1
      (numberedPhis graph records earlier block).2.1 := by
  have inDefs : ∀ dest ∈ block.phis.filterMap Instr.dest?, dest ∈ block.defs := by
    intro dest isDest
    rw [Block.defs, ← block.phis_append_body, List.filterMap_append]
    exact List.mem_append_left _ isDest
  refine merged_numberAll (placeOf graph block) _ (fun phi inside => ?_) ?_ fun dest isDest => ?_
  · obtain ⟨original, isOriginal, rfl⟩ := List.mem_map.1 inside
    rw [resolve, isPhi_mapIncoming]
    exact Block.isPhi_of_mem_phis isOriginal
  · rw [dests_resolve]
    have nodup := inSsa.nodup_defs member
    rw [Block.defs, ← block.phis_append_body, List.filterMap_append] at nodup
    exact nodup.of_append_left
  · rw [dests_resolve] at isDest
    exact not_bound_of_phi inSsa member available (inDefs dest isDest)

/-- How the body of a block is numbered. -/
theorem numberedBody_of_available (inSsa : Ssa.InSsa graph) (wellFormed : block.WellFormed)
    (member : block ∈ graph.blocks)
    (available : ∀ var, (records block.name).inherited.Bound var →
      Ssa.Available graph block.name [] var) (earlier : List String) :
    NumberedBody graph block.name block.phis block.body
      (numberedInstrs graph records earlier block).1 (numberedPhis graph records earlier block).2.1
      (numberedInstrs graph records earlier block).2.1 := by
  refine numberedBody (placeOf graph block) inSsa member block.phis_append_body.symm
    wellFormed.plain_body _ fun var isBound => ?_
  have merged := merged_of_available inSsa member available earlier
  rcases merged.extended.origin var isBound with early | isDest
  · exact (available var early).mono (by simp)
  · rw [dests_resolve] at isDest
    exact .inr (.inl isDest)

/-- A block that was visited is settled. -/
theorem settled_of_available (inSsa : Ssa.InSsa graph) (wellFormed : block.WellFormed)
    (member : block ∈ graph.blocks) (reachable : graph.Reachable block.name)
    (available : ∀ var, (records block.name).inherited.Bound var →
      Ssa.Available graph block.name [] var)
    (held : (records block.name).inherited.Held)
    (above : ∀ other incoming number,
      (records block.name).inherited.exprs.get? (.phi other incoming) = some number →
        StrictlyDominates graph.Leads graph.entryName other block.name)
    {earlier : List String}
    (out_eq : (records block.name).out = (numberedInstrs graph records earlier block).2.1) :
    Settled graph block.name (records block.name) := by
  have merged := merged_of_available inSsa member available earlier
  have numbered := numberedBody_of_available inSsa wellFormed member available earlier
  refine ⟨available, held, fun incoming => ?_, fun var isBound => ?_, ?_, ?_⟩
  · cases found : (records block.name).inherited.exprs.get? (.phi block.name incoming) with
    | none => rfl
    | some number => exact absurd rfl (above _ _ _ found).1
  · rw [out_eq] at isBound
    refine availableAtEnd_of_available member reachable (fun dest inside => ?_)
      (numbered.bound var isBound)
    rwa [block.phis_append_body] at inside
  · rw [out_eq]
    exact numbered.held (merged.extended.held held)
  · intro other incoming number found
    rw [out_eq, numbered.phis] at found
    by_cases isBlock : other = block.name
    · rw [isBlock]
      exact .refl reachable
    · rw [merged.others other incoming isBlock] at found
      exact (above other incoming number found).2

/-- The images of merges that were kept are the merges. -/
theorem Merged.exists_kept {name : String} {table after : ValueTable} {phis images : List Instr}
    {change : Instr → Instr} (merged : Merged name table (phis.map change) images after) :
    ∃ kept : List Instr, kept.Sublist phis ∧ images.filter Instr.isPhi = kept.map change := by
  have sublist : (images.filter Instr.isPhi).Sublist (phis.map change) := by
    have related := merged.images
    generalize phis.map change = left at related ⊢
    generalize (keptDests images) = dests at related
    clear merged
    induction related with
    | nil => exact .slnil
    | cons head _ tailIH =>
      rw [List.filter_cons]
      split
      · rename_i isPhi
        rcases head with rfl | lowered
        · exact tailIH.cons_cons _
        · rw [lowered.dest?_eq.2] at isPhi
          cases isPhi
      · exact tailIH.cons _
  obtain ⟨kept, isSublist, same⟩ := List.sublist_map_iff.1 sublist
  exact ⟨kept, isSublist, same⟩

end Visit

/-! ## Progress -/

section Progress

variable {graph : FlowGraph} {records : String → Record} {done : List String} {block current : Block}
  {phis tail : List Instr}

/-- The parts of a block that starts with some of its merges. -/
theorem Fronted.parts (fronted : Fronted records done block current phis tail) :
    current.phis = phis.map (resolve (outs records) done) ∧ current.body = tail := by
  refine Block.phis_of_split fronted.instrs_eq (fun phi member => ?_) fronted.plain
  obtain ⟨original, inside, rfl⟩ := List.mem_map.1 member
  rw [resolve, isPhi_mapIncoming]
  exact Block.isPhi_of_mem_phis (fronted.sublist.subset inside)

/-- Such a block is tidy in single assignment. -/
theorem Fronted.tidy (fronted : Fronted records done block current phis tail)
    (inSsa : Ssa.InSsa graph) (member : block ∈ graph.blocks) : Tidy current := by
  obtain ⟨phis_eq, body_eq⟩ := fronted.parts
  rw [Tidy, phis_eq, body_eq]
  refine ⟨fronted.plain, fun phi inside => ?_⟩
  obtain ⟨original, isOriginal, rfl⟩ := List.mem_map.1 inside
  have isPhi := fronted.sublist.subset isOriginal
  have length := inSsa.phi_args block member original isPhi
  rw [resolve, labels_mapIncoming, length_mapIncoming (Block.isPhi_of_mem_phis isPhi) length, length]

/-- The merges of a block take canonical variables from one more block, if it leads to them. -/
theorem Fronted.receive (fronted : Fronted records done block current phis tail) {name : String}
    (isNew : name ∉ done) {targets : List String}
    (leads : ∀ phi ∈ block.phis, name ∈ phi.labels → block.name ∈ targets) :
    Fronted records (done ++ [name]) block
      (if current.name ∈ targets then GlobalNumbering.receive name (outs records name) current
        else current) phis tail := by
  have sameName : (if current.name ∈ targets then
      GlobalNumbering.receive name (outs records name) current else current).name = block.name := by
    split
    · exact fronted.name_eq
    · exact fronted.name_eq
  refine ⟨sameName, ?_, fronted.sublist, fronted.plain⟩
  split
  · obtain ⟨phis_eq, body_eq⟩ := fronted.parts
    rw [GlobalNumbering.receive, phis_eq, body_eq, List.map_map]
    dsimp only
    congr 1
    refine List.map_congr_left fun phi member => ?_
    exact resolve_append (Block.isPhi_of_mem_phis (fronted.sublist.subset member)) isNew
  · rename_i notTarget
    rw [fronted.instrs_eq]
    congr 1
    refine List.map_congr_left fun phi member => (resolve_of_notMem fun isLabel => ?_).symm
    rw [fronted.name_eq] at notTarget
    exact notTarget (leads phi (fronted.sublist.subset member) isLabel)

/-- Every block starts with some of its merges at every stage. -/
theorem Stage.exists_fronted (stage : Stage graph records done block current) :
    ∃ phis tail, Fronted records done block current phis tail := by
  by_cases isDone : block.name ∈ done
  · obtain ⟨_, _, imaged⟩ := stage.visited isDone
    exact ⟨_, _, imaged.fronted⟩
  · exact ⟨_, _, stage.waiting isDone⟩

/-- A visit of another block keeps the stage of a block. -/
theorem Stage.step (stage : Stage graph records done block current) {name : String}
    (isNew : name ∉ done) (apart : block.name ≠ name) {targets : List String}
    (leads : ∀ phi ∈ block.phis, name ∈ phi.labels → block.name ∈ targets) :
    Stage graph records (done ++ [name]) block
      (if current.name ∈ targets then GlobalNumbering.receive name (outs records name) current
        else current) := by
  have isDone : block.name ∈ done ++ [name] ↔ block.name ∈ done := by simp [apart]
  refine ⟨fun absent => (stage.waiting (mt isDone.2 absent)).receive isNew leads, fun inside => ?_⟩
  obtain ⟨earlier, kept, imaged⟩ := stage.visited (isDone.1 inside)
  exact ⟨earlier, kept, fun other member => List.mem_append_left _ (imaged.subset other member),
    imaged.kept_eq, imaged.out_eq, imaged.fronted.receive isNew leads⟩

/-- A visited block leads to where it led and is well-formed. -/
theorem Imaged.wellFormed {earlier : List String} {kept : List Instr}
    (imaged : Imaged graph records done earlier kept block current) (inSsa : Ssa.InSsa graph)
    (member : block ∈ graph.blocks) (isWellFormed : block.WellFormed)
    (available : ∀ var, (records block.name).inherited.Bound var →
      Ssa.Available graph block.name [] var) :
    current.successors = block.successors ∧ current.WellFormed := by
  have merged := merged_of_available inSsa member available earlier
  have areMerges : ∀ phi ∈ kept.map (resolve (outs records) done),
      phi.isPhi = true ∧ phi.Checked := by
    intro phi inside
    obtain ⟨original, isOriginal, rfl⟩ := List.mem_map.1 inside
    have inPhis := imaged.fronted.sublist.subset isOriginal
    have isPhi := Block.isPhi_of_mem_phis inPhis
    exact ⟨isPhi_mapIncoming.trans isPhi, checked_mapIncoming
      (isWellFormed.checked _ (Block.mem_of_mem_phis inPhis)) isPhi
      (inSsa.phi_args block member original inPhis)⟩
  have arePlain : ∀ instr ∈ replacedPhis graph records earlier block, instr.isPhi = false ∧
      instr.isTerminator = false ∧ instr.isLabel = false ∧ instr.Checked := by
    intro instr inside
    obtain ⟨isImage, notPhi⟩ := List.mem_filter.1 inside
    obtain ⟨original, isOriginal, isSame | lowered⟩ := exists_of_forall₂_right merged.images isImage
    · obtain ⟨phi, inPhis, rfl⟩ := List.mem_map.1 isOriginal
      rw [isSame, resolve, isPhi_mapIncoming, Block.isPhi_of_mem_phis inPhis] at notPhi
      cases notPhi
    · exact lowered.plain
  obtain ⟨successors_eq, wellFormed, _⟩ := isWellFormed.of_sameShape _ _ imaged.fronted.instrs_eq
    areMerges arePlain (forall₂_sameShape (placeOf graph block) isWellFormed.plain_body _)
  exact ⟨successors_eq, wellFormed⟩

/-- At the start no block is visited. -/
theorem Progress.start (wellFormed : graph.WellFormed) (inSsa : Ssa.InSsa graph)
    (records : String → Record) : Progress graph records [] graph := by
  refine ⟨rfl, rfl, List.forall₂_same.2 fun block member => ⟨fun _ => ?_, by simp⟩, by simp⟩
  refine ⟨rfl, ?_, .refl _, (wellFormed.blocks block member).phis_first⟩
  rw [← block.phis_append_body]
  congr 1
  refine (List.map_id _).symm.trans (List.map_congr_left fun phi isPhi => ?_)
  have unchanged : takenFrom (outs records) [] = fun _ arg => arg := by
    funext label arg
    simp [takenFrom]
  rw [resolve, unchanged, mapIncoming_self (Block.isPhi_of_mem_phis isPhi)
    (inSsa.phi_args block member phi isPhi), id]

/-- The names of blocks stay. -/
theorem Progress.names_eq {state : FlowGraph} (progress : Progress graph records done state) :
    state.names = graph.names :=
  FlowGraph.map_name_of_forall₂ progress.blocks fun _ _ stage => by
    obtain ⟨_, _, fronted⟩ := stage.exists_fronted
    exact fronted.name_eq

/-- A block that was not visited yet: its merges take canonical variables from visited blocks. -/
theorem Progress.exists_current {state : FlowGraph} (wellFormed : graph.WellFormed)
    (progress : Progress graph records done state) (member : block ∈ graph.blocks)
    (isNew : block.name ∉ done) : ∃ current, state.find? block.name = some current ∧
      Fronted records done block current block.phis block.body := by
  obtain ⟨current, inside, stage⟩ := exists_of_forall₂_left progress.blocks member
  have waiting := stage.waiting isNew
  exact ⟨current, (FlowGraph.find?_eq_some_iff (progress.names_eq ▸ wellFormed.nodup_names)).2
    ⟨inside, waiting.name_eq⟩, waiting⟩

/-- A visit numbers its block as the record says and passes the values at its end on. -/
theorem Progress.exists_numbered {state : FlowGraph} (wellFormed : graph.WellFormed)
    (inSsa : Ssa.InSsa graph) (progress : Progress graph records done state)
    (member : block ∈ graph.blocks) (isNew : block.name ∉ done)
    (available : ∀ var, (records block.name).inherited.Bound var →
      Ssa.Available graph block.name [] var)
    (out_eq : (visitBlock block.name (records block.name).inherited state).2.1 =
      (records block.name).out) :
    ∃ numbered kept, Imaged graph records done done kept block numbered ∧
      (visitBlock block.name (records block.name).inherited state).1 =
        (propagate ⟨state.name, block.name, passName⟩ (records block.name).out numbered.successors
          (state.modifyBlock block.name fun _ => numbered)).1 := by
  obtain ⟨current, found, waiting⟩ := progress.exists_current wellFormed member isNew
  obtain ⟨phis_eq, body_eq⟩ := waiting.parts
  have numbered_eq : ∃ log, numberBlock ⟨state.name, block.name, passName⟩
      (records block.name).inherited current =
      ({ current with
          instrs := (numberedPhis graph records done block).1.filter Instr.isPhi ++
            replacedPhis graph records done block ++ (numberedInstrs graph records done block).1 },
        (numberedInstrs graph records done block).2.1, log) := by
    unfold numberBlock
    rw [phis_eq, body_eq, progress.name_eq]
    dsimp only
    rw [List.partition_eq_filter_filter]
    exact ⟨_, rfl⟩
  obtain ⟨log, numbered_eq⟩ := numbered_eq
  simp only [visitBlock, found, numbered_eq] at out_eq ⊢
  have merged := merged_of_available inSsa member available done
  obtain ⟨kept, isSublist, kept_eq⟩ := merged.exists_kept
  rw [out_eq]
  refine ⟨_, kept, ?_, rfl⟩
  refine ⟨fun _ => id, kept_eq, out_eq.symm,
    ⟨waiting.name_eq, ?_, isSublist, fun instr isTail => ?_⟩⟩
  · rw [← kept_eq, List.append_assoc]
  · rcases List.mem_append.1 isTail with isReplaced | inBody
    · simpa using (List.mem_filter.1 isReplaced).2
    · obtain ⟨original, isOriginal, shape⟩ := exists_of_forall₂_right (forall₂_sameShape
        (placeOf graph block) (wellFormed.blocks block member).plain_body _) inBody
      exact shape.isPhi_eq.trans ((wellFormed.blocks block member).phis_first original isOriginal)

/-- Passing values on from a numbered block changes the merges of all the blocks it leads to. -/
theorem Progress.propagate_eq {state : FlowGraph} (wellFormed : graph.WellFormed)
    (inSsa : Ssa.InSsa graph) (progress : Progress graph records done state)
    (member : block ∈ graph.blocks) {numbered : Block} {kept : List Instr}
    (imaged : Imaged graph records done done kept block numbered) (place : Place)
    (table : ValueTable) :
    (propagate place table numbered.successors (state.modifyBlock block.name fun _ => numbered)).1 =
      { state with
        blocks := (state.modifyBlock block.name fun _ => numbered).blocks.map fun other =>
          if other.name ∈ numbered.successors then receive place.block table other
          else other } := by
  have tidy : ∀ other ∈ (state.modifyBlock block.name fun _ => numbered).blocks, Tidy other := by
    intro other isOther
    obtain ⟨original, isOriginal, rfl⟩ := List.mem_map.1 isOther
    obtain ⟨old, isOld, stage⟩ := exists_of_forall₂_right progress.blocks isOriginal
    obtain ⟨_, _, fronted⟩ := stage.exists_fronted
    split
    · exact imaged.fronted.tidy inSsa member
    · exact fronted.tidy inSsa isOld
  have names_eq : (state.modifyBlock block.name fun _ => numbered).names = graph.names :=
    (FlowGraph.names_modifyBlock_of fun _ _ => imaged.fronted.name_eq).trans progress.names_eq
  exact GlobalNumbering.propagate_eq place table numbered.nodup_successors
    (names_eq ▸ wellFormed.nodup_names) tidy

/-- A visit of one more block keeps the invariant. -/
theorem Progress.step {state next : FlowGraph × Log} {table : ValueTable}
    (wellFormed : graph.WellFormed) (inSsa : Ssa.InSsa graph)
    (progress : Progress graph records done state.1) (member : block ∈ graph.blocks)
    (reachable : graph.Reachable block.name) (isNew : block.name ∉ done)
    (visited : Visited block.name table state (records block.name) next)
    (available : ∀ var, table.Bound var → Ssa.Available graph block.name [] var)
    (held : table.Held)
    (above : ∀ other incoming number, table.exprs.get? (.phi other incoming) = some number →
      StrictlyDominates graph.Leads graph.entryName other block.name) :
    Progress graph records (done ++ [block.name]) next.1 := by
  obtain ⟨state, _⟩ := state
  obtain ⟨next, _⟩ := next
  obtain ⟨inherited_eq, out_eq, next_eq, _⟩ := visited
  dsimp only at *
  have isWellFormed := wellFormed.blocks block member
  rw [← inherited_eq] at available held above out_eq next_eq
  obtain ⟨numbered, kept, imaged, visit_eq⟩ :=
    progress.exists_numbered wellFormed inSsa member isNew available out_eq
  obtain ⟨successors_eq, _⟩ := imaged.wellFormed inSsa member isWellFormed available
  rw [visit_eq, progress.propagate_eq wellFormed inSsa member imaged] at next_eq
  subst next_eq
  -- A merge names the block exactly when the block leads to it.
  have leads : ∀ other ∈ graph.blocks, ∀ phi ∈ other.phis, block.name ∈ phi.labels →
      other.name ∈ numbered.successors := by
    intro other isOther phi isPhi isLabel
    rw [(inSsa.phi_labels other isOther phi isPhi).mem_iff] at isLabel
    obtain ⟨source, isSource, sameName, target⟩ := FlowGraph.mem_predecessorsOf.1 isLabel
    rw [successors_eq, ← List.inj_on_of_nodup_map wellFormed.nodup_names isSource member sameName]
    exact target
  refine ⟨progress.name_eq, progress.params_eq, ?_, fun name isDone => ?_⟩
  · simp only [FlowGraph.modifyBlock, List.map_map]
    rw [List.forall₂_map_right_iff]
    refine forall₂_imp_of_mem progress.blocks fun other isOther image stage => ?_
    have imageName : image.name = other.name := by
      obtain ⟨_, _, fronted⟩ := stage.exists_fronted
      exact fronted.name_eq
    rw [Function.comp_apply]
    by_cases sameName : other.name = block.name
    · obtain rfl := List.inj_on_of_nodup_map wellFormed.nodup_names isOther member sameName
      simp only [if_pos (imageName.trans sameName)]
      exact ⟨fun absent => absurd (by simp) absent, fun _ => ⟨done, kept,
        fun name inside => List.mem_append_left _ inside, imaged.kept_eq, imaged.out_eq,
        imaged.fronted.receive isNew (leads other isOther)⟩⟩
    · have apart : image.name ≠ block.name := imageName ▸ sameName
      simp only [if_neg apart]
      exact stage.step isNew sameName (leads other isOther)
  · rcases List.mem_append.1 isDone with early | isLast
    · exact progress.settled name early
    · obtain rfl := List.mem_singleton.1 isLast
      exact settled_of_available inSsa isWellFormed member reachable available held above
        imaged.out_eq

end Progress

/-! ## The finished walk -/

/-- The values at the start of a function. -/
def startTable (graph : FlowGraph) : ValueTable := graph.paramNames.foldl ValueTable.define {}

/-- What a flow graph is made of once all its blocks are visited. -/
structure Walked (graph after : FlowGraph) (done : List String) (records : String → Record) :
    Prop where
  /-- The original flow graph is well-formed. -/
  wellFormed : graph.WellFormed
  /-- It is in single assignment. -/
  inSsa : Ssa.InSsa graph
  /-- All its blocks are reachable. -/
  reachable : ∀ block ∈ graph.blocks, graph.Reachable block.name
  /-- The parameters stay. -/
  params_eq : after.params = graph.params
  /-- The function keeps its name. -/
  name_eq : after.name = graph.name
  /-- All reachable blocks are visited. -/
  mem_done : ∀ name, name ∈ done ↔ graph.Reachable name
  /-- Each block has its kept merges, what became of the others, and its numbered body. -/
  images : List.Forall₂ (fun block image => ∃ earlier kept,
    Imaged graph records done earlier kept block image) graph.blocks after.blocks
  /-- Visited blocks are settled. -/
  settled : ∀ name, graph.Reachable name → Settled graph name (records name)
  /-- The entry starts with the parameters. -/
  inherited_entry : (records graph.entryName).inherited = startTable graph
  /-- A block starts with the values of its immediate dominator. -/
  inherited_eq : ∀ upper name, Immediate graph.Leads graph.entryName upper name →
    (records name).inherited = (records upper).out

/-- What holds of values from above: those of the parameters, or of a block above. -/
theorem Progress.inherited {graph state : FlowGraph} {records : String → Record}
    {done : List String} (progress : Progress graph records done state) {name : String}
    {parent : Option String}
    (isParent : (name = graph.entryName ∧ parent = none) ∨
      ∃ upper, parent = some upper ∧ Immediate graph.Leads graph.entryName upper name)
    (isDone : ∀ upper, parent = some upper → upper ∈ done) :
    let table := Dominance.inheritedFrom (startTable graph) Record.out records parent
    (∀ var, table.Bound var → Ssa.Available graph name [] var) ∧ table.Held ∧
      ∀ other incoming number, table.exprs.get? (.phi other incoming) = some number →
        StrictlyDominates graph.Leads graph.entryName other name := by
  rcases isParent with ⟨_, rfl⟩ | ⟨upper, rfl, immediate⟩
  · refine ⟨fun var isBound => ?_, ValueTable.held_of_defined (by simp [ValueTable.Held]), ?_⟩
    · rcases ValueTable.bound_of_defined isBound with ⟨number, found⟩ | isParam
      · simp [ValueTable.numberOf?] at found
      · exact .inl isParam
    · intro other incoming number found
      change (startTable graph).exprs.get? _ = _ at found
      rw [startTable, ValueTable.exprs_of_defined] at found
      cases found
  · have settled := progress.settled upper (isDone upper rfl)
    refine ⟨fun var isBound => ?_, settled.out_held, fun other incoming number found => ?_⟩
    · rcases settled.out_available var isBound with isParam | ⟨block, member, written, dominates⟩ |
        nowhere
      · exact .inl isParam
      · refine .inr (.inr (.inl ⟨block, member, written, ?_, dominates.trans immediate.strict.2⟩))
        rintro rfl
        exact immediate.strict.1 (immediate.strict.2.antisymm dominates)
      · exact .inr (.inr (.inr nowhere))
    · have dominates := settled.out_phis other incoming number found
      refine ⟨?_, dominates.trans immediate.strict.2⟩
      rintro rfl
      exact immediate.strict.1 (immediate.strict.2.antisymm dominates)

/-- A block about to be visited, and the values that the visit starts from. -/
structure Visiting (graph : FlowGraph) (records : String → Record) (done : List String)
    (state : FlowGraph) (block : Block) (table : ValueTable) : Prop where
  /-- What holds while the walk is on. -/
  progress : Progress graph records done state
  /-- It is a block of the flow graph. -/
  member : block ∈ graph.blocks
  /-- It is reachable. -/
  reachable : graph.Reachable block.name
  /-- It was not visited before. -/
  isNew : block.name ∉ done
  /-- The values are those of the parameters, or those at the end of a visited block. -/
  origin : table = startTable graph ∨ ∃ upper ∈ done, table = (records upper).out
  /-- What has a number is available in front of the block. -/
  available : ∀ var, table.Bound var → Ssa.Available graph block.name [] var
  /-- Values are held. -/
  held : table.Held
  /-- Merges with numbers belong to blocks above. -/
  above : ∀ other incoming number, table.exprs.get? (.phi other incoming) = some number →
    StrictlyDominates graph.Leads graph.entryName other block.name

/-- Global numbering of a flow graph in single assignment is a walk, on which there is progress. What
else every visit keeps holds at its end. -/
theorem exists_walk {graph : FlowGraph} (wellFormed : graph.WellFormed) (inSsa : Ssa.InSsa graph) :
    ∃ dominance records, Dominance.ofFlowGraph graph = .ok dominance ∧
      dominance.Built graph.successorMap graph.entryName ∧
      Dominance.Walk Visited (startTable graph) Record.out records (dominance.tree.visits none)
        (graph, []) (visitTree dominance.tree (startTable graph) graph) ∧
      ∀ holds : List String → FlowGraph × Log → Prop, holds [] (graph, []) →
        (∀ done state next block table, Visiting graph records done state.1 block table →
          Visited block.name table state (records block.name) next → holds done state →
            holds (done ++ [block.name]) next) →
        Progress graph records dominance.tree.preorder
            (visitTree dominance.tree (startTable graph) graph).1 ∧
          holds dominance.tree.preorder (visitTree dominance.tree (startTable graph) graph) := by
  obtain ⟨dominance, isDominance, built⟩ := wellFormed.exists_dominance
  obtain ⟨members, nodup, parents⟩ := built.tree_spec
  rw [FlowGraph.succeeds_successorMap wellFormed.nodup_names] at members parents
  have spec : ∀ {name table state out next}, visit name table state = .ok (out, next) →
      ∃ record, Visited name table state record next ∧ record.out = out := by
    intro name table state out next visits
    obtain ⟨rfl, rfl⟩ := Prod.mk.inj (Except.ok.inj visits)
    exact ⟨⟨table, _⟩, ⟨rfl, rfl, rfl, rfl⟩, rfl⟩
  have walked := walk_visit dominance.tree (startTable graph) graph []
  rw [List.nil_append] at walked
  obtain ⟨records, walk⟩ := Dominance.Tree.exists_walk visit spec nodup walked
  refine ⟨dominance, records, isDominance, built, walk, fun holds atStart kept => ?_⟩
  -- Progress is part of the invariant, because it is what makes a visit count as one.
  have finished := walk.invariant
    (fun (done : List String) (state : FlowGraph × Log) =>
      Progress graph records done state.1 ∧ holds done state) []
    ⟨Progress.start wellFormed inSsa records, atStart⟩
    (fun before name parent after state next split both visited => by
      obtain ⟨progress, held⟩ := both
      rw [List.nil_append] at split
      have isVisit : (name, parent) ∈ dominance.tree.visits none := by
        rw [split]
        exact List.mem_append_right _ (List.mem_cons_self ..)
      have isReachable := (members name).1 (Dominance.Tree.mem_preorder_of_visit isVisit)
      obtain ⟨block, member, rfl⟩ := List.mem_map.1 (wellFormed.mem_names_of_reachable isReachable)
      have isNew : block.name ∉ before.map Prod.fst := by
        rw [← Dominance.Tree.map_fst_visits none, split, List.map_append, List.map_cons] at nodup
        intro inside
        exact (List.nodup_append.1 nodup).2.2 _ inside _ (List.mem_cons_self ..) rfl
      have isDone : ∀ upper, parent = some upper → upper ∈ before.map Prod.fst := by
        rintro upper rfl
        rcases Dominance.Tree.parent_visited _ split with impossible | isDone
        · cases impossible
        · exact isDone
      obtain ⟨available, areHeld, above⟩ := progress.inherited (parents _ _ isVisit) isDone
      have origin : Dominance.inheritedFrom (startTable graph) Record.out records parent =
            startTable graph ∨ ∃ upper ∈ before.map Prod.fst,
          Dominance.inheritedFrom (startTable graph) Record.out records parent =
            (records upper).out := by
        cases parent with
        | none => exact .inl rfl
        | some upper => exact .inr ⟨upper, isDone upper rfl, rfl⟩
      have visiting : Visiting graph records (before.map Prod.fst) state.1 block _ :=
        ⟨progress, member, isReachable, isNew, origin, available, areHeld, above⟩
      exact ⟨progress.step wellFormed inSsa member isReachable isNew visited available areHeld above,
        kept _ _ _ _ _ visiting visited held⟩)
  rwa [List.nil_append, Dominance.Tree.map_fst_visits] at finished

/-- Global numbering of a flow graph in single assignment visits all its blocks. -/
theorem exists_walked {graph : FlowGraph} (wellFormed : graph.WellFormed) (inSsa : Ssa.InSsa graph)
    (reachable : ∀ block ∈ graph.blocks, graph.Reachable block.name) :
    ∃ after log done records, run graph = .ok (after, log) ∧ Walked graph after done records := by
  obtain ⟨dominance, records, isDominance, built, walk, visits⟩ := exists_walk wellFormed inSsa
  obtain ⟨members, _, parents⟩ := built.tree_spec
  rw [FlowGraph.succeeds_successorMap wellFormed.nodup_names] at members parents
  have finished := (visits (fun _ _ => True) trivial fun _ _ _ _ _ _ _ _ => trivial).1
  refine ⟨_, (visitTree dominance.tree (startTable graph) graph).2, dominance.tree.preorder, records,
    ?_, ⟨wellFormed, inSsa, reachable, finished.params_eq, finished.name_eq, members, ?_, ?_, ?_, ?_⟩⟩
  · rw [run, isDominance]
    rfl
  · refine forall₂_imp_of_mem finished.blocks fun block member image stage => ?_
    exact stage.visited ((members _).2 (reachable block member))
  · intro name isReachable
    exact finished.settled name ((members name).2 isReachable)
  · obtain ⟨rest, isFirst⟩ := built.exists_visits_eq
    obtain ⟨_, _, visited⟩ := walk.exists_visit (isFirst ▸ List.mem_cons_self ..)
    exact visited.inherited_eq
  · intro upper name immediate
    have inside := (members name).2 immediate.strict.2.reaches
    rw [← Dominance.Tree.map_fst_visits none] at inside
    obtain ⟨⟨_, parent⟩, member, rfl⟩ := List.mem_map.1 inside
    obtain ⟨_, _, visited⟩ := walk.exists_visit member
    rcases parents _ _ member with ⟨isEntry, _⟩ | ⟨above, rfl, isAbove⟩
    · exact absurd isEntry immediate.strict.ne_start
    · rw [← isAbove.unique immediate]
      exact visited.inherited_eq

end GlobalNumbering

end Midend
