import Midend.FlowGraph.Edit
import Midend.Proofs.Sorted
import Midend.Registers.Interference

/-! # What interferes

Two variables that interfere are neighbours of each other, and none is its own neighbour
(`Interference.Simple`). All operations that build a graph only ever add to it (`Interference.Grows`),
so what one of them adds is there in the end. The other way round, what is in the end was added by
one of them (`Interference.within_ofLiveness`). Merging a variable into one that it does not interfere
with keeps everything else apart (`Interference.merge_spec`). -/

namespace Midend

namespace Interference

variable {graph middle other : Interference}

/-! ## Neighbours -/

/-- Two variables interfere. -/
def Adjacent (graph : Interference) (left right : String) : Prop := right ∈ graph.neighbors left

/-- Variables that interfere with each other, none with itself. -/
structure Simple (graph : Interference) : Prop where
  /-- Interference is mutual. -/
  symm : ∀ left right, graph.Adjacent left right → graph.Adjacent right left
  /-- No variable interferes with itself. -/
  irrefl : ∀ node, ¬graph.Adjacent node node

/-- The graph without variables is simple. -/
theorem simple_empty : Simple {} where
  symm _ _ adjacent := absurd adjacent (SortedSet.not_mem_empty _)
  irrefl _ adjacent := absurd adjacent (SortedSet.not_mem_empty _)

/-- The question whether variables interfere is decided. -/
theorem interferes_iff {left right : String} :
    graph.interferes left right = true ↔ graph.Adjacent left right := by
  rw [interferes, SortedSet.contains_iff, Adjacent]

/-- What has neighbours is in the graph. -/
theorem Adjacent.mem_nodes {left right : String} (adjacent : graph.Adjacent left right) :
    left ∈ graph.nodes := by
  unfold Adjacent neighbors SortedMap.getD at adjacent
  cases found : graph.neighborMap.get? left with
  | none =>
    rw [found, Option.getD_none] at adjacent
    exact absurd adjacent (SortedSet.not_mem_empty right)
  | some known => exact SortedMap.mem_keys.2 ⟨known, found⟩

/-- A graph is empty when it has no variables. -/
theorem isEmpty_iff : graph.isEmpty = true ↔ graph.nodes = [] := by
  rw [isEmpty, SortedMap.isEmpty, List.isEmpty_iff, nodes, SortedMap.keys,
    List.map_eq_nil_iff]

/-! ## Growth -/

/-- A graph that has all variables and edges of another one, and is simple if that is. -/
structure Grows (graph other : Interference) : Prop where
  /-- No variable is lost. -/
  nodes : ∀ node ∈ graph.nodes, node ∈ other.nodes
  /-- No edge is lost. -/
  adjacent : ∀ left right, graph.Adjacent left right → other.Adjacent left right
  /-- The edges that are added are mutual and between different variables. -/
  simple : graph.Simple → other.Simple

/-- A graph has what it has. -/
theorem Grows.refl (graph : Interference) : Grows graph graph :=
  ⟨fun _ member => member, fun _ _ adjacent => adjacent, fun simple => simple⟩

/-- A graph may grow in steps. -/
theorem Grows.trans (first : Grows graph middle) (second : Grows middle other) : Grows graph other :=
  ⟨fun node member => second.nodes node (first.nodes node member),
    fun left right adjacent => second.adjacent left right (first.adjacent left right adjacent),
    fun simple => second.simple (first.simple simple)⟩

/-- Steps that grow a graph grow it together, each from what those before it left to what those after
it go on with. -/
theorem grows_foldl {α : Type} (step : Interference → α → Interference)
    (grows : ∀ graph element, Grows graph (step graph element)) (list : List α)
    (graph : Interference) : Grows graph (list.foldl step graph) ∧
      ∀ element ∈ list, ∃ before, Grows (step before element) (list.foldl step graph) := by
  induction list generalizing graph with
  | nil => exact ⟨.refl graph, by simp⟩
  | cons head tail tailIH =>
    obtain ⟨whole, each⟩ := tailIH (step graph head)
    refine ⟨(grows graph head).trans whole, fun element member => ?_⟩
    rcases List.mem_cons.1 member with rfl | inTail
    · exact ⟨graph, whole⟩
    · exact each element inTail

/-! ## Variables and edges -/

/-- A variable that is added has no neighbours. -/
theorem neighbors_addNode (graph : Interference) (node left : String) :
    (graph.addNode node).neighbors left = graph.neighbors left := by
  unfold addNode neighbors SortedMap.getD
  rw [SortedMap.get?_insertIfNew]
  split
  · rename_i same
    rw [same, Option.getD_some]
  · rfl

/-- A variable is added. -/
theorem grows_addNode (graph : Interference) (node : String) : Grows graph (graph.addNode node) := by
  have same : ∀ left right, (graph.addNode node).Adjacent left right ↔ graph.Adjacent left right := by
    intro left right
    rw [Adjacent, neighbors_addNode, Adjacent]
  refine ⟨fun other member => ?_, fun left right => (same left right).2, fun simple => ⟨?_, ?_⟩⟩
  · obtain ⟨known, found⟩ := SortedMap.mem_keys.1 member
    refine SortedMap.mem_keys.2 ?_
    rw [addNode, SortedMap.get?_insertIfNew, found]
    split
    · exact ⟨_, rfl⟩
    · exact ⟨known, rfl⟩
  · intro left right adjacent
    rw [same] at adjacent ⊢
    exact simple.symm left right adjacent
  · intro other
    rw [same]
    exact simple.irrefl other

/-- A variable that was added is there. -/
theorem mem_nodes_addNode (graph : Interference) (node : String) :
    node ∈ (graph.addNode node).nodes := by
  refine SortedMap.mem_keys.2 ?_
  rw [addNode, SortedMap.get?_insertIfNew, if_pos rfl]
  exact ⟨_, rfl⟩

/-- The neighbours after one was added. -/
theorem mem_neighbors_addNeighbor (graph : Interference) (node added left right : String) :
    right ∈ (graph.addNeighbor node added).neighbors left ↔
      right ∈ graph.neighbors left ∨ (left = node ∧ right = added) := by
  unfold addNeighbor neighbors SortedMap.getD
  rw [SortedMap.get?_alter]
  by_cases same : left = node
  · subst same
    rw [if_pos rfl, Option.getD_some, SortedSet.mem_insert, or_comm]
    simp
  · rw [if_neg same]
    simp [same]

/-- The variables after a neighbour was added. -/
theorem mem_nodes_addNeighbor (graph : Interference) (node added left : String) :
    left ∈ (graph.addNeighbor node added).nodes ↔ left ∈ graph.nodes ∨ left = node := by
  unfold nodes
  rw [SortedMap.mem_keys, SortedMap.mem_keys, addNeighbor, SortedMap.get?_alter]
  by_cases same : left = node <;> simp [same]

/-- The edges after one was added. -/
theorem adjacent_addEdge (graph : Interference) (first second left right : String) :
    (graph.addEdge first second).Adjacent left right ↔ graph.Adjacent left right ∨
      (first ≠ second ∧ ((left = first ∧ right = second) ∨ (left = second ∧ right = first))) := by
  unfold addEdge Adjacent
  split
  · rename_i same
    simp [same]
  · rename_i apart
    rw [mem_neighbors_addNeighbor, mem_neighbors_addNeighbor]
    tauto

/-- An edge is added. -/
theorem grows_addEdge (graph : Interference) (first second : String) :
    Grows graph (graph.addEdge first second) := by
  refine ⟨fun node member => ?_, fun left right adjacent => ?_, fun simple => ⟨?_, ?_⟩⟩
  · unfold addEdge
    split
    · exact member
    · rw [mem_nodes_addNeighbor, mem_nodes_addNeighbor]
      exact .inl (.inl member)
  · exact (adjacent_addEdge ..).2 (.inl adjacent)
  · intro left right
    rw [adjacent_addEdge, adjacent_addEdge]
    rintro (known | ⟨apart, added | added⟩)
    · exact .inl (simple.symm left right known)
    · exact .inr ⟨apart, .inr added.symm⟩
    · exact .inr ⟨apart, .inl added.symm⟩
  · intro node
    rw [adjacent_addEdge]
    rintro (known | ⟨apart, added | added⟩)
    · exact simple.irrefl node known
    · exact apart (added.1.symm.trans added.2)
    · exact apart (added.2.symm.trans added.1)

/-- A variable gets neighbours, except itself. -/
theorem addEdges_spec (graph : Interference) (node : String) (others : List String) :
    Grows graph (graph.addEdges node others) ∧
      ∀ added ∈ others, added ≠ node → (graph.addEdges node others).Adjacent node added := by
  obtain ⟨grows, each⟩ := grows_foldl _
    (fun graph added => grows_addEdge graph node added) others graph
  refine ⟨grows, fun added member apart => ?_⟩
  obtain ⟨before, later⟩ := each added member
  exact later.adjacent _ _ ((adjacent_addEdge ..).2 (.inr ⟨apart.symm, .inl ⟨rfl, rfl⟩⟩))

/-- Variables that are added all get each other as neighbours. -/
theorem addClique_spec (graph : Interference) (members : List String) :
    Grows graph (graph.addClique members) ∧ (∀ node ∈ members, node ∈ (graph.addClique members).nodes) ∧
      members.Pairwise fun left right => left ≠ right →
        (graph.addClique members).Adjacent left right := by
  induction members generalizing graph with
  | nil => exact ⟨.refl graph, by simp, .nil⟩
  | cons node rest restIH =>
    obtain ⟨edges, adjacent⟩ := addEdges_spec (graph.addNode node) node rest
    obtain ⟨others, known, pairs⟩ := restIH ((graph.addNode node).addEdges node rest)
    have first := (grows_addNode graph node).trans edges
    refine ⟨first.trans others, ?_, .cons ?_ pairs⟩
    · intro member inside
      rcases List.mem_cons.1 inside with rfl | inRest
      · exact others.nodes _ (edges.nodes _ (mem_nodes_addNode graph member))
      · exact known member inRest
    · exact fun added inRest apart => others.adjacent _ _ (adjacent added inRest apart.symm)

/-! ## Instructions and blocks -/

/-- The variables of an instruction are added, and what it writes gets the variables that are live
behind it as neighbours. -/
theorem addInstr_spec (graph : Interference) (instr : Instr) (live : SortedSet String) :
    Grows graph (graph.addInstr instr live) ∧
      (∀ var, var ∈ instr.args ∨ instr.dest? = some var → var ∈ (graph.addInstr instr live).nodes) ∧
      ∀ dest, instr.dest? = some dest → ∀ var ∈ live, var ≠ dest →
        (graph.addInstr instr live).Adjacent dest var := by
  obtain ⟨args, each⟩ := grows_foldl _ grows_addNode instr.args graph
  have known : ∀ var ∈ instr.args, var ∈ (instr.args.foldl addNode graph).nodes := by
    intro var member
    obtain ⟨before, later⟩ := each var member
    exact later.nodes var (mem_nodes_addNode before var)
  unfold addInstr
  cases isDest : instr.dest? with
  | none => exact ⟨args, fun var member => known var (by simpa using member), nofun⟩
  | some dest =>
    dsimp only
    have node := grows_addNode (instr.args.foldl addNode graph) dest
    obtain ⟨edges, adjacent⟩ := addEdges_spec ((instr.args.foldl addNode graph).addNode dest) dest
      live.toList
    refine ⟨args.trans (node.trans edges), ?_, ?_⟩
    · rintro var (member | isVar)
      · exact edges.nodes var (node.nodes var (known var member))
      · obtain rfl := Option.some.inj isVar
        exact edges.nodes _ (mem_nodes_addNode _ _)
    · intro other isOther var isLive apart
      obtain rfl := Option.some.inj isOther
      exact adjacent var (SortedSet.mem_toList.2 isLive) apart

/-- What is live behind an instruction of a block is what the instructions behind it make of what is
live at the end. -/
theorem mem_zip_afterEach {before after : List Instr} {instr : Instr} (live : SortedSet String) :
    (instr, Liveness.stepBackAll after live) ∈ (before ++ instr :: after).zip
      (Liveness.afterEach (before ++ instr :: after) live) := by
  induction before with
  | nil => exact List.mem_cons_self ..
  | cons first rest restIH => exact List.mem_cons_of_mem _ restIH

/-- The instructions of a block are added. -/
theorem addBlock_spec (graph : Interference) (block : Block) (live : SortedSet String) :
    Grows graph (graph.addBlock block live) ∧
      ∀ before instr after, block.instrs = before ++ instr :: after →
        (∀ var, var ∈ instr.args ∨ instr.dest? = some var →
          var ∈ (graph.addBlock block live).nodes) ∧
        ∀ dest, instr.dest? = some dest → ∀ var ∈ Liveness.stepBackAll after live, var ≠ dest →
          (graph.addBlock block live).Adjacent dest var := by
  obtain ⟨grows, each⟩ := grows_foldl (fun graph (place : Instr × SortedSet String) =>
    graph.addInstr place.1 place.2) (fun graph place => (addInstr_spec graph place.1 place.2).1)
    (block.instrs.zip (Liveness.afterEach block.instrs live)) graph
  refine ⟨grows, fun before instr after split => ?_⟩
  obtain ⟨start, later⟩ := each (instr, Liveness.stepBackAll after live) (by
    rw [split]
    exact mem_zip_afterEach live)
  obtain ⟨_, known, adjacent⟩ := addInstr_spec start instr (Liveness.stepBackAll after live)
  exact ⟨fun var isVar => later.nodes var (known var isVar), fun dest isDest var isLive apart =>
    later.adjacent _ _ (adjacent dest isDest var isLive apart)⟩

/-- What the interference of a flow graph is for: it has all variables, the parameters interfere, and
what an instruction writes interferes with all that is live behind it. -/
structure Covers (graph : FlowGraph) (liveOut : String → SortedSet String)
    (interference : Interference) : Prop where
  /-- Interference is mutual, and not of a variable with itself. -/
  simple : interference.Simple
  /-- Parameters are there. -/
  params : ∀ param ∈ graph.paramNames, param ∈ interference.nodes
  /-- Parameters interfere. -/
  params_apart : graph.paramNames.Pairwise fun left right => left ≠ right →
    interference.Adjacent left right
  /-- Variables of instructions are there. -/
  vars : ∀ block ∈ graph.blocks, ∀ instr ∈ block.instrs, ∀ var,
    var ∈ instr.args ∨ instr.dest? = some var → var ∈ interference.nodes
  /-- What is written interferes with what is live behind. -/
  apart : ∀ block ∈ graph.blocks, ∀ before instr after, block.instrs = before ++ instr :: after →
    ∀ dest, instr.dest? = some dest →
      ∀ var ∈ Liveness.stepBackAll after (liveOut block.name), var ≠ dest →
        interference.Adjacent dest var

/-- Different parameters interfere, in any order. -/
theorem Covers.adjacent_params {graph : FlowGraph} {liveOut : String → SortedSet String}
    {interference : Interference} (covers : Covers graph liveOut interference) {left right : String}
    (isLeft : left ∈ graph.paramNames) (isRight : right ∈ graph.paramNames) (apart : left ≠ right) :
    interference.Adjacent left right := by
  have flipped := covers.params_apart.imp fun {left right} adjacent (apart : right ≠ left) =>
    covers.simple.symm left right (adjacent (Ne.symm apart))
  exact covers.params_apart.forall_of_forall_of_flip (fun _ _ same => absurd rfl same) flipped isLeft
    isRight apart

/-- The interference of a flow graph covers it. -/
theorem covers_ofLiveness (graph : FlowGraph) (live : Solution (SortedSet String)) :
    Covers graph (fun name => (live.after? name).getD .empty) (ofLiveness graph live) := by
  obtain ⟨clique, known, pairs⟩ := addClique_spec {} graph.paramNames
  obtain ⟨atEntry, isGraph⟩ : ∃ atEntry : SortedSet String, ofLiveness graph live =
      graph.blocks.foldl
        (fun known block => known.addBlock block ((live.after? block.name).getD .empty))
        (graph.paramNames.foldl (fun known param => addEdges known param atEntry.toList)
          (addClique {} graph.paramNames)) := ⟨_, rfl⟩
  rw [isGraph]
  have entry := (grows_foldl (fun known param => addEdges known param atEntry.toList)
    (fun known param => (addEdges_spec known param atEntry.toList).1) graph.paramNames
    (addClique {} graph.paramNames)).1
  obtain ⟨blocks, each⟩ := grows_foldl (fun known (block : Block) =>
    known.addBlock block ((live.after? block.name).getD .empty))
    (fun known block => (addBlock_spec known block _).1) graph.blocks
    (graph.paramNames.foldl (fun known param => addEdges known param atEntry.toList)
      (addClique {} graph.paramNames))
  have params := entry.trans blocks
  refine ⟨(clique.trans params).simple simple_empty, fun param member => ?_, ?_, ?_, ?_⟩
  · exact params.nodes param (known param member)
  · exact pairs.imp fun adjacent apart => params.adjacent _ _ (adjacent apart)
  · intro block member instr inside var isVar
    obtain ⟨before, after, split⟩ := List.append_of_mem inside
    obtain ⟨start, later⟩ := each block member
    exact later.nodes var (((addBlock_spec start block _).2 before instr after split).1 var isVar)
  · intro block member before instr after split dest isDest var isLive apart
    obtain ⟨start, later⟩ := each block member
    exact later.adjacent _ _
      (((addBlock_spec start block _).2 before instr after split).2 dest isDest var isLive apart)

/-- Parameters interfere with what else is live at the entry. -/
theorem adjacent_of_live_at_entry {graph : FlowGraph} (live : Solution (SortedSet String))
    {entry : Block} (isEntry : graph.blocks.head? = some entry) {param var : String}
    (isParam : param ∈ graph.paramNames)
    (isLive : var ∈ (live.before? entry.name).getD .empty) (apart : var ≠ param) :
    (ofLiveness graph live).Adjacent param var := by
  unfold ofLiveness
  rw [isEntry]
  dsimp only
  obtain ⟨before, later⟩ := (grows_foldl
    (fun known param => addEdges known param ((live.before? entry.name).getD .empty).toList)
    (fun known param => (addEdges_spec known param _).1) graph.paramNames
    (addClique {} graph.paramNames)).2 param isParam
  refine (grows_foldl (fun known (block : Block) =>
    known.addBlock block ((live.after? block.name).getD .empty))
    (fun known block => (addBlock_spec known block _).1) graph.blocks _).1.adjacent _ _ ?_
  exact later.adjacent _ _ ((addEdges_spec ..).2 var (SortedSet.mem_toList.2 isLive) apart)

/-! ## Where edges come from -/

/-- All edges of a graph are in a relation. -/
def Within (graph : Interference) (related : String → String → Prop) : Prop :=
  ∀ left right, graph.Adjacent left right → related left right

section Within

variable {related : String → String → Prop}
  (symm : ∀ left right, related left right → related right left)

/-- What is done for each element of a list adds related edges only if each step does. -/
theorem Within.foldl {α : Type} {list : List α} {step : Interference → α → Interference}
    (within : graph.Within related) (steps : ∀ known : Interference, known.Within related →
      ∀ element ∈ list, (step known element).Within related) :
    (list.foldl step graph).Within related :=
  List.foldlRecOn (motive := fun known => known.Within related) list step within steps

/-- A variable that is added brings no edge. -/
theorem Within.addNode (within : graph.Within related) (node : String) :
    (graph.addNode node).Within related := by
  intro left right
  rw [Adjacent, neighbors_addNode]
  exact within left right

include symm

/-- Edges are related when they are added as related. -/
theorem Within.addEdges {others : List String} (within : graph.Within related) {node : String}
    (edges : ∀ added ∈ others, added ≠ node → related node added) :
    (graph.addEdges node others).Within related := by
  refine within.foldl fun known isWithin added member left right => ?_
  rw [adjacent_addEdge]
  rintro (isKnown | ⟨apart, ⟨rfl, rfl⟩ | ⟨rfl, rfl⟩⟩)
  · exact isWithin left right isKnown
  · exact edges right member (Ne.symm apart)
  · exact symm _ _ (edges left member (Ne.symm apart))

/-- Edges among variables are related when the variables are. -/
theorem Within.addClique {members : List String} (within : graph.Within related)
    (edges : ∀ left ∈ members, ∀ right ∈ members, right ≠ left → related left right) :
    (graph.addClique members).Within related := by
  induction members generalizing graph with
  | nil => exact within
  | cons node rest restIH =>
    refine restIH ((within.addNode node).addEdges symm fun added inRest => ?_) ?_
    · exact edges node (List.mem_cons_self ..) added (List.mem_cons_of_mem _ inRest)
    · exact fun left inRest right alsoInRest =>
        edges left (List.mem_cons_of_mem _ inRest) right (List.mem_cons_of_mem _ alsoInRest)

/-- The edges of an instruction are related when what it writes is to what is live behind it. -/
theorem Within.addInstr (within : graph.Within related) {instr : Instr} {live : SortedSet String}
    (edges : ∀ dest, instr.dest? = some dest → ∀ var ∈ live, var ≠ dest → related dest var) :
    (graph.addInstr instr live).Within related := by
  have args : (instr.args.foldl Interference.addNode graph).Within related :=
    within.foldl fun _ isWithin arg _ => isWithin.addNode arg
  unfold Interference.addInstr
  cases isDest : instr.dest? with
  | none => exact args
  | some dest =>
    exact (args.addNode dest).addEdges symm fun var isLive =>
      edges dest isDest var (SortedSet.mem_toList.1 isLive)

omit symm in
/-- What an instruction of a block is listed with is live behind it. -/
theorem exists_split_of_mem_zip_afterEach {instrs : List Instr} {live after : SortedSet String}
    {instr : Instr} (member : (instr, after) ∈ instrs.zip (Liveness.afterEach instrs live)) :
    ∃ front rest, instrs = front ++ instr :: rest ∧ after = Liveness.stepBackAll rest live := by
  induction instrs with
  | nil => cases member
  | cons first rest restIH =>
    rcases List.mem_cons.1 member with same | inRest
    · obtain ⟨rfl, rfl⟩ := Prod.mk.inj same
      exact ⟨[], rest, rfl, rfl⟩
    · obtain ⟨front, later, rfl, isAfter⟩ := restIH inRest
      exact ⟨first :: front, later, rfl, isAfter⟩

/-- The edges of a block are related when what each instruction writes is to what is live behind. -/
theorem Within.addBlock (within : graph.Within related) {block : Block} {live : SortedSet String}
    (edges : ∀ before instr after, block.instrs = before ++ instr :: after →
      ∀ dest, instr.dest? = some dest →
        ∀ var ∈ Liveness.stepBackAll after live, var ≠ dest → related dest var) :
    (graph.addBlock block live).Within related := by
  refine within.foldl fun known isWithin ⟨instr, after⟩ member => ?_
  obtain ⟨front, rest, split, rfl⟩ := exists_split_of_mem_zip_afterEach member
  exact isWithin.addInstr symm fun dest isDest => edges front instr rest split dest isDest

/-- The interference of a flow graph has no other edges than those among parameters, between
parameters and what is live at the entry, and between what is written and what is live behind. -/
theorem within_ofLiveness {graph : FlowGraph} {live : Solution (SortedSet String)}
    (params : ∀ left ∈ graph.paramNames, ∀ right ∈ graph.paramNames, right ≠ left →
      related left right)
    (atEntry : ∀ entry, graph.blocks.head? = some entry → ∀ param ∈ graph.paramNames,
      ∀ var ∈ (live.before? entry.name).getD .empty, var ≠ param → related param var)
    (written : ∀ block ∈ graph.blocks, ∀ before instr after,
      block.instrs = before ++ instr :: after → ∀ dest, instr.dest? = some dest →
        ∀ var ∈ Liveness.stepBackAll after ((live.after? block.name).getD .empty), var ≠ dest →
          related dest var) : (ofLiveness graph live).Within related := by
  have clique : (addClique {} graph.paramNames).Within related :=
    Within.addClique symm (fun left right adjacent => absurd adjacent (SortedSet.not_mem_empty _))
      params
  unfold ofLiveness
  refine (clique.foldl ?_).foldl ?_
  · intro known isWithin param isParam
    refine isWithin.addEdges symm fun var isLive => ?_
    cases isEntry : graph.blocks.head? with
    | none =>
      rw [isEntry] at isLive
      cases isLive
    | some entry =>
      rw [isEntry] at isLive
      exact atEntry entry isEntry param isParam var (SortedSet.mem_toList.1 isLive)
  · exact fun known isWithin block member => isWithin.addBlock symm (written block member)

end Within

/-! ## Removal and merging -/

/-- The neighbours after a variable was removed. -/
theorem mem_neighbors_removeNode (graph : Interference) (node left right : String) :
    right ∈ (graph.removeNode node).neighbors left ↔
      left ≠ node ∧ right ≠ node ∧ right ∈ graph.neighbors left := by
  unfold removeNode neighbors SortedMap.getD
  rw [SortedMap.get?_mapValues, SortedMap.get?_erase_eq]
  by_cases same : left = node
  · simp [same]
  · rw [if_neg same]
    cases graph.neighborMap.get? left with
    | none => simp
    | some known => simp [same]

/-- The variables after one was removed. -/
theorem mem_nodes_removeNode (graph : Interference) (node left : String) :
    left ∈ (graph.removeNode node).nodes ↔ left ≠ node ∧ left ∈ graph.nodes := by
  unfold nodes removeNode
  rw [SortedMap.mem_keys, SortedMap.mem_keys, SortedMap.get?_mapValues, SortedMap.get?_erase_eq]
  by_cases same : left = node
  · simp [same]
  · rw [if_neg same]
    cases graph.neighborMap.get? left <;> simp [same]

/-- A graph has fewer variables when one is taken out. -/
theorem size_removeNode_lt {node : String} (member : node ∈ graph.nodes) :
    (graph.removeNode node).size < graph.size := by
  obtain ⟨entry, listed, isNode⟩ := List.mem_map.1 member
  have removed : (graph.removeNode node).size =
      (graph.neighborMap.toList.filter fun entry => entry.1 ≠ node).length := List.length_map _
  rw [removed]
  exact List.length_filter_lt_length_iff_exists.2 ⟨entry, listed, by simp [isNode]⟩

/-- A simple graph stays simple without a variable. -/
theorem Simple.removeNode (simple : graph.Simple) (node : String) :
    (graph.removeNode node).Simple := by
  refine ⟨fun left right => ?_, fun other => ?_⟩
  · unfold Adjacent
    rw [mem_neighbors_removeNode, mem_neighbors_removeNode]
    rintro ⟨leftStays, rightStays, adjacent⟩
    exact ⟨rightStays, leftStays, simple.symm left right adjacent⟩
  · unfold Adjacent
    rw [mem_neighbors_removeNode]
    exact fun adjacent => simple.irrefl other adjacent.2.2

/-- Under changed names all variables and edges are there. -/
structure Contracts (change : String → String) (graph other : Interference) : Prop where
  /-- Variables are there under their new names. -/
  nodes : ∀ node ∈ graph.nodes, change node ∈ other.nodes
  /-- What interferes does so under its new names. -/
  adjacent : ∀ left right, graph.Adjacent left right → other.Adjacent (change left) (change right)
  /-- The graph is simple. -/
  simple : other.Simple

/-- Merging a variable into another one, which it does not interfere with, keeps the others apart. -/
theorem merge_spec (simple : graph.Simple) {source target : String} (apart : source ≠ target)
    (free : ¬graph.Adjacent source target) :
    Contracts (FlowGraph.replaceName source target) graph (graph.merge source target) := by
  have kept : ∀ {node}, node ≠ source → FlowGraph.replaceName source target node = node :=
    fun isOther => if_neg isOther
  unfold merge
  cases found : graph.neighborMap.get? source with
  | none =>
    -- A variable that is not in the graph has nothing to give away.
    have notSource : ∀ node ∈ graph.nodes, node ≠ source := by
      rintro node member rfl
      obtain ⟨known, isKnown⟩ := SortedMap.mem_keys.1 member
      rw [found] at isKnown
      cases isKnown
    refine ⟨fun node member => ?_, fun left right adjacent => ?_, simple⟩
    · rwa [kept (notSource node member)]
    · rwa [kept (notSource left adjacent.mem_nodes),
        kept (notSource right (simple.symm _ _ adjacent).mem_nodes)]
  | some known =>
    dsimp only
    have isKnown : graph.neighbors source = known := by
      rw [neighbors, SortedMap.getD, found, Option.getD_some]
    have node := grows_addNode (graph.removeNode source) target
    obtain ⟨edges, adjacent⟩ := addEdges_spec ((graph.removeNode source).addNode target) target
      known.toList
    have later := node.trans edges
    have isSimple := later.simple (simple.removeNode source)
    -- The neighbours of the one become neighbours of the other.
    have moved : ∀ {right}, graph.Adjacent source right →
        (((graph.removeNode source).addNode target).addEdges target known.toList).Adjacent target
          right := by
      intro right isNeighbor
      refine adjacent right (SortedSet.mem_toList.2 (isKnown ▸ isNeighbor)) ?_
      rintro rfl
      exact free isNeighbor
    refine ⟨fun other member => ?_, fun left right isAdjacent => ?_, isSimple⟩
    · by_cases isSource : other = source
      · rw [FlowGraph.replaceName, if_pos isSource]
        exact edges.nodes target (mem_nodes_addNode _ target)
      · rw [kept isSource]
        exact later.nodes other ((mem_nodes_removeNode ..).2 ⟨isSource, member⟩)
    · by_cases isLeft : left = source
      · subst isLeft
        have isOther : right ≠ left := fun same => simple.irrefl left (same ▸ isAdjacent)
        rw [kept isOther, FlowGraph.replaceName, if_pos rfl]
        exact moved isAdjacent
      · rw [kept isLeft]
        by_cases isRight : right = source
        · subst isRight
          rw [FlowGraph.replaceName, if_pos rfl]
          exact isSimple.symm _ _ (moved (simple.symm _ _ isAdjacent))
        · rw [kept isRight]
          exact later.adjacent _ _ ((mem_neighbors_removeNode ..).2 ⟨isLeft, isRight, isAdjacent⟩)

end Interference

end Midend
