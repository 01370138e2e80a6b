import Mathlib.Data.List.Perm.Subperm
import Midend.Proofs.Attempt
import Midend.Proofs.Registers.Interference
import Midend.Registers.Coloring

/-! # Colored variables

Variables that interfere get different registers because the later of two finds the register of the
earlier one taken (`Coloring.assign_spec`), whatever the order is. That every variable gets one is due
to the order, which has all variables, each behind few of its neighbours
(`Coloring.simplifyFrom_eq_ok`). -/

namespace Midend

namespace Coloring

variable {graph : Interference} {colors : Coloring} {registers order : List String}

/-- Variables that interfere have different registers, if both have one. -/
def Separates (graph : Interference) (colors : Coloring) : Prop :=
  ∀ left right, graph.Adjacent left right → ∀ register, colors.get? left = some register →
    colors.get? right ≠ some register

/-- A variable gets a register that none of its neighbours has. -/
theorem Separates.insert (separates : Separates graph colors) (simple : graph.Simple)
    {node free : String}
    (unused : ∀ other, graph.Adjacent node other → colors.get? other ≠ some free) :
    Separates graph (colors.insert node free) := by
  intro left right adjacent register
  rw [SortedMap.get?_insert_eq, SortedMap.get?_insert_eq]
  by_cases isLeft : left = node
  · subst isLeft
    have apart : right ≠ left := fun same => simple.irrefl left (same ▸ adjacent)
    rw [if_pos rfl, if_neg apart]
    rintro ⟨⟩
    exact unused right adjacent
  · rw [if_neg isLeft]
    by_cases isRight : right = node
    · subst isRight
      rw [if_pos rfl]
      rintro held ⟨⟩
      exact unused left (simple.symm left right adjacent) held
    · rw [if_neg isRight]
      exact separates left right adjacent register

/-- Registers are given to all variables of an order, and those that interfere get different ones. -/
theorem assign_spec (simple : graph.Simple) (separates : Separates graph colors)
    (known : ∀ node register, colors.get? node = some register → register ∈ registers)
    {colored : Coloring} (assigned : assign graph registers order colors = .ok colored) :
    Separates graph colored ∧
      (∀ node register, colored.get? node = some register → register ∈ registers) ∧
      ∀ node, (∃ register, colored.get? node = some register) ↔
        node ∈ order ∨ ∃ register, colors.get? node = some register := by
  induction order generalizing colors with
  | nil =>
    obtain rfl := Except.ok.inj assigned
    exact ⟨separates, known, fun node => by simp⟩
  | cons first rest restIH =>
    rw [assign] at assigned
    split at assigned
    · rename_i free isFree
      -- The register that was found is none of those that the neighbours have.
      have unused : ∀ other, graph.Adjacent first other → colors.get? other ≠ some free := by
        intro other adjacent held
        have isTaken := List.find?_some isFree
        refine absurd (List.mem_filterMap.2 ⟨other, SortedSet.mem_toList.2 adjacent, held⟩) ?_
        simpa using isTaken
      have inRegisters : ∀ node register, (colors.insert first free).get? node = some register →
          register ∈ registers := by
        intro node register
        rw [SortedMap.get?_insert_eq]
        split
        · rintro ⟨⟩
          exact List.mem_of_find?_eq_some isFree
        · exact known node register
      obtain ⟨apart, ofRegisters, all⟩ :=
        restIH (separates.insert simple unused) inRegisters assigned
      refine ⟨apart, ofRegisters, fun node => ?_⟩
      rw [all, SortedMap.get?_insert_eq, List.mem_cons]
      by_cases isFirst : node = first
      · simp [isFirst]
      · simp [isFirst]
    · cases assigned

/-- A scan that keeps the best so far or takes what it is at answers what it started with or one that
it was at and that it takes. -/
theorem foldl_choice (good : String → Prop) {step : Option String → String → Option String}
    (chooses : ∀ best node, step best node = best ∨ (step best node = some node ∧ good node))
    {nodes : List String} {best : Option String} {node : String}
    (chosen : nodes.foldl step best = some node) : best = some node ∨ (node ∈ nodes ∧ good node) := by
  induction nodes generalizing best with
  | nil => exact .inl chosen
  | cons first rest restIH =>
    rcases restIH chosen with isNext | ⟨inRest, isGood⟩
    · rcases chooses best first with kept | ⟨taken, isGood⟩
      · exact .inl (kept.symm.trans isNext)
      · obtain rfl := Option.some.inj (taken.symm.trans isNext)
        exact .inr ⟨List.mem_cons_self .., isGood⟩
    · exact .inr ⟨List.mem_cons_of_mem _ inRest, isGood⟩

/-- The variable that is taken out next is one of the graph and of low degree. -/
theorem pick?_eq_some {bound : Nat} {node : String} (picked : pick? graph bound = some node) :
    node ∈ graph.nodes ∧ graph.degree node < bound := by
  refine (foldl_choice (fun other => graph.degree other < bound) (fun best other => ?_)
    picked).resolve_left nofun
  split
  · exact .inl rfl
  · rename_i low
    have low : graph.degree other < bound := by omega
    split
    · split
      · exact .inr ⟨rfl, low⟩
      · exact .inl rfl
    · exact .inr ⟨rfl, low⟩

/-- A scan answers nothing only if it starts with nothing and passes over everything. -/
theorem foldl_eq_none (passes : String → Prop) {step : Option String → String → Option String}
    (keeps : ∀ best node, step best node = none → best = none ∧ passes node) {nodes : List String}
    {best : Option String} (isNone : nodes.foldl step best = none) :
    best = none ∧ ∀ node ∈ nodes, passes node := by
  induction nodes generalizing best with
  | nil => exact ⟨isNone, nofun⟩
  | cons first rest restIH =>
    obtain ⟨next, others⟩ := restIH isNone
    obtain ⟨start, passed⟩ := keeps best first next
    exact ⟨start, List.forall_mem_cons.2 ⟨passed, others⟩⟩

/-- No variable is taken out next only if none is of low degree. -/
theorem pick?_eq_none {bound : Nat} (refused : pick? graph bound = none) :
    ∀ node ∈ graph.nodes, bound ≤ graph.degree node := by
  refine (foldl_eq_none (fun other => bound ≤ graph.degree other) (fun best other isNone => ?_)
    refused).2
  split at isNone
  · rename_i high
    exact ⟨isNone, high⟩
  · split at isNone
    · split at isNone <;> cases isNone
    · cases isNone

/-- An order in which every variable of a graph comes once, behind fewer than `bound` of its
neighbours. -/
structure Orders (bound : Nat) (graph : Interference) (order : List String) : Prop where
  /-- No variable comes twice. -/
  nodup : order.Nodup
  /-- The variables are those of the graph. -/
  mem_iff : ∀ node, node ∈ order ↔ node ∈ graph.nodes
  /-- Few neighbours come before a variable. -/
  few_before : ∀ before node after, order = before ++ node :: after →
    before.countP (graph.interferes node) < bound

/-- Neighbours in a list without repetitions are no more than the degree. -/
theorem countP_le_degree {nodes : List String} (nodup : nodes.Nodup) (node : String) :
    nodes.countP (graph.interferes node) ≤ graph.degree node := by
  rw [List.countP_eq_length_filter, Interference.degree, SortedSet.size]
  refine ((nodup.filter _).subperm fun other member => ?_).length_le
  exact SortedSet.mem_toList.2 (Interference.interferes_iff.1 (List.mem_filter.1 member).2)

/-- A variable of low degree may come last. -/
theorem Orders.concat {bound : Nat} {node : String} (member : node ∈ graph.nodes)
    (low : graph.degree node < bound) {front : List String}
    (orders : Orders bound (graph.removeNode node) front) : Orders bound graph (front ++ [node]) := by
  have inFront : ∀ other, other ∈ front ↔ other ≠ node ∧ other ∈ graph.nodes := fun other => by
    rw [orders.mem_iff, Interference.mem_nodes_removeNode]
  refine ⟨?_, fun other => ?_, fun before other after split => ?_⟩
  · refine List.nodup_append.2 ⟨orders.nodup, List.nodup_singleton node, fun other isFront => ?_⟩
    rintro _ (_ | _) rfl
    · exact ((inFront other).1 isFront).1 rfl
    · contradiction
  · rw [List.mem_append, List.mem_singleton, inFront]
    constructor
    · rintro (⟨_, inGraph⟩ | rfl)
      · exact inGraph
      · exact member
    · intro inGraph
      by_cases same : other = node
      · exact .inr same
      · exact .inl ⟨same, inGraph⟩
  · rcases List.append_eq_append_iff.1 split with ⟨middle, rfl, isLast⟩ | ⟨middle, rfl, isAfter⟩
    · -- The variable that comes last has few neighbours at all.
      have isNode : middle = [] ∧ other = node := by
        cases middle with
        | nil => exact ⟨rfl, (List.cons.inj isLast).1.symm⟩
        | cons _ _ => simp at isLast
      obtain ⟨rfl, rfl⟩ := isNode
      rw [List.append_nil]
      exact Nat.lt_of_le_of_lt (countP_le_degree orders.nodup other) low
    · cases middle with
      | nil =>
        obtain ⟨rfl, _⟩ : other = node ∧ after = [] := by simpa using isAfter
        rw [List.append_nil] at orders
        exact Nat.lt_of_le_of_lt (countP_le_degree orders.nodup other) low
      | cons first middle =>
        obtain ⟨rfl, _⟩ := List.cons.inj isAfter
        have few := orders.few_before before other middle rfl
        -- Among the others, neighbours are what they are without the last variable.
        refine Nat.lt_of_le_of_lt (List.countP_mono_left fun earlier inBefore isNeighbor => ?_) few
        have stays := (inFront earlier).1 (List.mem_append_left _ inBefore)
        have otherStays := (inFront other).1 (List.mem_append_right _ (List.mem_cons_self ..))
        rw [Interference.interferes_iff] at isNeighbor ⊢
        exact (Interference.mem_neighbors_removeNode ..).2 ⟨otherStays.1, stays.1, isNeighbor⟩

/-- The order found has all variables of the graph, each behind few of its neighbours. -/
theorem simplifyFrom_eq_ok {bound budget : Nat} {taken : List String}
    (simplified : simplifyFrom bound budget graph taken = .ok order) :
    ∃ front, order = front ++ taken ∧ Orders bound graph front := by
  have done : ∀ {graph : Interference}, graph.isEmpty = true → Orders bound graph [] := by
    intro graph empty
    rw [Interference.isEmpty_iff] at empty
    exact ⟨List.nodup_nil, fun node => by rw [empty], fun before node after split => by simp at split⟩
  induction budget generalizing graph taken with
  | zero =>
    rw [simplifyFrom] at simplified
    split at simplified
    · rename_i empty
      exact ⟨[], (Except.ok.inj simplified).symm, done empty⟩
    · cases simplified
  | succ budget budgetIH =>
    rw [simplifyFrom] at simplified
    split at simplified
    · rename_i empty
      exact ⟨[], (Except.ok.inj simplified).symm, done empty⟩
    · split at simplified
      · rename_i node picked
        obtain ⟨member, low⟩ := pick?_eq_some picked
        obtain ⟨front, rfl, orders⟩ := budgetIH simplified
        exact ⟨front ++ [node], by simp, orders.concat member low⟩
      · cases simplified

/-- A coloring gives the variables of a graph registers, and different ones to variables that
interfere. -/
theorem ofInterference_spec (simple : graph.Simple)
    (colored : ofInterference graph registers = .ok colors) :
    (∀ node, (∃ register, colors.get? node = some register) ↔ node ∈ graph.nodes) ∧
      (∀ node register, colors.get? node = some register → register ∈ registers) ∧
      Separates graph colors := by
  obtain ⟨order, simplified, assigned⟩ := Attempt.bind_eq_ok.1 colored
  obtain ⟨front, rfl, orders⟩ := simplifyFrom_eq_ok simplified
  have none : Separates graph .empty := fun left right _ register held => by simp at held
  obtain ⟨apart, ofRegisters, all⟩ := assign_spec simple none
    (fun node register held => by simp at held) assigned
  refine ⟨fun node => ?_, ofRegisters, apart⟩
  rw [all, List.append_nil, orders.mem_iff]
  simp

end Coloring

end Midend
