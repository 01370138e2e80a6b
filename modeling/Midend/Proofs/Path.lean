import Mathlib.Data.List.Nodup

/-! # Paths and dominance

Paths along a relation, as the lists of the nodes that they visit, and the dominance that they
define: `upper` dominates `lower` when `lower` is reached and every path to it visits `upper`. The
strict dominators of a node have a closest one (`Reaches.exists_immediate`), which dominates all its
predecessors too (`Immediate.dominates_source`). -/

namespace Midend

variable {α : Type}

/-- The nodes of a path along `edge` from `start` to a node, the last one first. -/
inductive Path (edge : α → α → Prop) (start : α) : List α → α → Prop where
  /-- The path that stays where it starts. -/
  | start : Path edge start [start] start
  /-- A path followed by one more edge. -/
  | step {nodes : List α} {here next : α} :
      Path edge start nodes here → edge here next → Path edge start (next :: nodes) next

/-- Some path leads from `start` to `finish`. -/
def Reaches (edge : α → α → Prop) (start finish : α) : Prop := ∃ nodes, Path edge start nodes finish

namespace Path

variable {edge : α → α → Prop} {start finish node : α} {nodes : List α}

/-- A path visits the node where it ends. -/
theorem finish_mem (path : Path edge start nodes finish) : finish ∈ nodes := by
  cases path <;> simp

/-- A path visits the node where it starts. -/
theorem start_mem (path : Path edge start nodes finish) : start ∈ nodes := by
  induction path with
  | start => simp
  | step _ _ startMem => exact List.mem_cons_of_mem _ startMem

/-- The first node listed for a path is where it ends. -/
theorem exists_eq_cons (path : Path edge start nodes finish) :
    ∃ earlier, nodes = finish :: earlier := by
  cases path with
  | start => exact ⟨[], rfl⟩
  | step => exact ⟨_, rfl⟩

/-- A path of more than one node ends with an edge. -/
theorem of_cons {last : α} (path : Path edge start (last :: nodes) finish) (more : nodes ≠ []) :
    finish = last ∧ ∃ here, Path edge start nodes here ∧ edge here last := by
  cases path with
  | start => exact absurd rfl more
  | step shorter lastEdge => exact ⟨rfl, _, shorter, lastEdge⟩

/-- A path may be cut at a node it visits, and its second part may follow any path to that node. -/
theorem splice {later earlier : List α} (path : Path edge start (later ++ node :: earlier) finish) :
    Path edge start (node :: earlier) node ∧
      ∀ others, Path edge start others node → Path edge start (later ++ others) finish := by
  induction later generalizing finish with
  | nil =>
    have same : finish = node := by cases path <;> rfl
    subst same
    exact ⟨path, fun others reached => reached⟩
  | cons last later laterIH =>
    obtain ⟨rfl, here, shorter, lastEdge⟩ := path.of_cons (by simp)
    obtain ⟨cut, follow⟩ := laterIH shorter
    exact ⟨cut, fun others reached => (follow others reached).step lastEdge⟩

/-- An edge followed by a path. -/
theorem prepend {first : α} (firstEdge : edge first start) (path : Path edge start nodes finish) :
    Path edge first (nodes ++ [first]) finish := by
  induction path with
  | start => exact Path.start.step firstEdge
  | step _ lastEdge shorterIH => exact shorterIH.step lastEdge

/-- A path goes on from every node that it visits. -/
theorem exists_rest (path : Path edge start nodes finish) (member : node ∈ nodes) :
    ∃ rest, Path edge node rest finish ∧ rest ⊆ nodes := by
  induction path with
  | start =>
    obtain rfl := List.mem_singleton.1 member
    exact ⟨[_], .start, fun _ inside => inside⟩
  | @step nodes here next _ lastEdge shorterIH =>
    rcases List.mem_cons.1 member with rfl | earlier
    · exact ⟨[_], .start, by simp⟩
    · obtain ⟨rest, path, subset⟩ := shorterIH earlier
      exact ⟨next :: rest, path.step lastEdge, List.cons_subset_cons _ subset⟩

/-- Two paths, the second from where the first ends, make one that visits what they visit. -/
theorem exists_extended {first second : List α} {middle : α} (path : Path edge start first middle)
    (further : Path edge middle second finish) :
    ∃ whole, Path edge start whole finish ∧ ∀ node ∈ whole, node ∈ first ∨ node ∈ second := by
  induction further with
  | start => exact ⟨first, path, fun _ inside => .inl inside⟩
  | @step nodes here next _ lastEdge shorterIH =>
    obtain ⟨whole, wholePath, visits⟩ := shorterIH
    refine ⟨next :: whole, wholePath.step lastEdge, fun node inside => ?_⟩
    rcases List.mem_cons.1 inside with rfl | earlier
    · exact .inr (List.mem_cons_self ..)
    · exact (visits node earlier).imp_right (List.mem_cons_of_mem _)

/-- Everything a path visits is reached. -/
theorem reaches_of_mem (path : Path edge start nodes finish) (member : node ∈ nodes) :
    Reaches edge start node := by
  obtain ⟨later, earlier, rfl⟩ := List.append_of_mem member
  exact ⟨_, path.splice.1⟩

/-- Wherever a path leads, another one leads that visits no node twice and nothing new. -/
theorem exists_nodup (path : Path edge start nodes finish) :
    ∃ simple, Path edge start simple finish ∧ simple.Nodup ∧ simple ⊆ nodes := by
  induction path with
  | start => exact ⟨[start], .start, by simp, fun _ member => member⟩
  | @step nodes here next _ lastEdge shorter =>
    obtain ⟨simple, simplePath, nodup, subset⟩ := shorter
    by_cases visited : next ∈ simple
    · obtain ⟨later, earlier, rfl⟩ := List.append_of_mem visited
      refine ⟨next :: earlier, simplePath.splice.1, (List.nodup_append.1 nodup).2.1, ?_⟩
      intro other member
      exact List.mem_cons_of_mem _ (subset (List.mem_append_right _ member))
    · refine ⟨next :: simple, simplePath.step lastEdge, List.nodup_cons.2 ⟨visited, nodup⟩, ?_⟩
      exact List.cons_subset_cons _ subset

/-- A property of the start that edges keep holds wherever a path leads. -/
theorem invariant (holds : α → Prop) (path : Path edge start nodes finish) (atStart : holds start)
    (keep : ∀ here next, holds here → edge here next → holds next) : holds finish := by
  induction path with
  | start => exact atStart
  | step _ lastEdge heldBefore => exact keep _ _ heldBefore lastEdge

/-- A path along one relation is a path along another that has the same edges on the way. -/
theorem mono {other : α → α → Prop} (path : Path edge start nodes finish)
    (keep : ∀ here next, Reaches edge start here → edge here next → other here next) :
    Path other start nodes finish := by
  induction path with
  | start => exact .start
  | step shorter lastEdge shorterIH => exact shorterIH.step (keep _ _ ⟨_, shorter⟩ lastEdge)

/-- A map that keeps edges carries a path to a path. -/
theorem map {β : Type} {other : β → β → Prop} (change : α → β)
    (keep : ∀ here next, edge here next → other (change here) (change next))
    (path : Path edge start nodes finish) :
    Path other (change start) (nodes.map change) (change finish) := by
  induction path with
  | start => exact .start
  | step _ lastEdge shorterIH => exact shorterIH.step (keep _ _ lastEdge)

end Path

namespace Reaches

variable {edge : α → α → Prop} {start here next : α}

/-- Every node reaches itself. -/
theorem refl (edge : α → α → Prop) (start : α) : Reaches edge start start := ⟨[start], .start⟩

/-- What is reached leads on to what its edges lead to. -/
theorem step (reached : Reaches edge start here) (lastEdge : edge here next) :
    Reaches edge start next :=
  let ⟨_, path⟩ := reached
  ⟨_, path.step lastEdge⟩

end Reaches

/-- `upper` dominates `lower`: `lower` is reached, and only by paths that visit `upper`. -/
structure Dominates (edge : α → α → Prop) (start upper lower : α) : Prop where
  /-- The lower node is reached. -/
  reaches : Reaches edge start lower
  /-- Every path to the lower node visits the upper one. -/
  mem_of_path : ∀ nodes, Path edge start nodes lower → upper ∈ nodes

/-- `upper` dominates `lower` and is another node. -/
def StrictlyDominates (edge : α → α → Prop) (start upper lower : α) : Prop :=
  upper ≠ lower ∧ Dominates edge start upper lower

/-- `upper` is the closest strict dominator of `lower`: all others dominate it. -/
structure Immediate (edge : α → α → Prop) (start upper lower : α) : Prop where
  /-- It is a strict dominator. -/
  strict : StrictlyDominates edge start upper lower
  /-- Every strict dominator dominates it. -/
  closest : ∀ other, StrictlyDominates edge start other lower → Dominates edge start other upper

namespace Dominates

variable {edge : α → α → Prop} {start upper middle lower : α}

/-- A node that is reached dominates itself. -/
theorem refl (reached : Reaches edge start lower) : Dominates edge start lower lower :=
  ⟨reached, fun _ path => path.finish_mem⟩

/-- The start dominates all that it reaches. -/
theorem of_start (reached : Reaches edge start lower) : Dominates edge start start lower :=
  ⟨reached, fun _ path => path.start_mem⟩

/-- A dominator is reached. -/
theorem reaches_upper (dominates : Dominates edge start upper lower) : Reaches edge start upper := by
  obtain ⟨nodes, path⟩ := dominates.reaches
  exact path.reaches_of_mem (dominates.mem_of_path nodes path)

/-- Dominance is transitive. -/
theorem trans (above : Dominates edge start upper middle) (below : Dominates edge start middle lower) :
    Dominates edge start upper lower := by
  refine ⟨below.reaches, fun nodes path => ?_⟩
  obtain ⟨later, earlier, rfl⟩ := List.append_of_mem (below.mem_of_path nodes path)
  exact List.mem_append_right _ (above.mem_of_path _ path.splice.1)

/-- Two nodes that dominate each other are one: a shortest path to the first would have to visit the
second before, and the first before that. -/
theorem antisymm (down : Dominates edge start upper lower) (up : Dominates edge start lower upper) :
    upper = lower := by
  by_contra apart
  have none_short : ∀ (bound : Nat) (nodes : List α), nodes.length ≤ bound →
      ¬ Path edge start nodes upper := by
    intro bound
    induction bound with
    | zero =>
      intro nodes short path
      have := List.length_pos_of_mem path.finish_mem
      omega
    | succ bound boundIH =>
      intro nodes short path
      obtain ⟨later, earlier, rfl⟩ := List.append_of_mem (up.mem_of_path nodes path)
      have laterNonempty : later ≠ [] := by
        rintro rfl
        cases path <;> exact apart rfl
      have toLower := path.splice.1
      obtain ⟨between, before, split⟩ := List.append_of_mem (down.mem_of_path _ toLower)
      rw [split] at toLower
      refine boundIH _ ?_ toLower.splice.1
      have lengths := congrArg List.length split
      have laterPositive := List.length_pos_iff.2 laterNonempty
      simp only [List.length_append, List.length_cons] at lengths short ⊢
      omega
  obtain ⟨nodes, path⟩ := up.reaches
  exact none_short _ nodes (Nat.le_refl _) path

/-- A node other than the start is reached over a node that it does not dominate. -/
theorem exists_source (reached : Reaches edge start lower) (notStart : lower ≠ start) :
    ∃ source, Reaches edge start source ∧ edge source lower ∧
      ¬Dominates edge start lower source := by
  obtain ⟨nodes, path⟩ := reached
  obtain ⟨simple, path, nodup, _⟩ := path.exists_nodup
  cases path with
  | start => exact absurd rfl notStart
  | step shorter lastEdge =>
    refine ⟨_, ⟨_, shorter⟩, lastEdge, fun dominates => ?_⟩
    exact (List.nodup_cons.1 nodup).1 (dominates.mem_of_path _ shorter)

/-- A strict dominator of a node dominates the nodes whose edges lead there. -/
theorem of_edge {source : α} (strict : StrictlyDominates edge start upper lower)
    (reached : Reaches edge start source) (lastEdge : edge source lower) :
    Dominates edge start upper source := by
  refine ⟨reached, fun nodes path => ?_⟩
  rcases List.mem_cons.1 (strict.2.mem_of_path _ (path.step lastEdge)) with same | member
  · exact absurd same strict.1
  · exact member

/-- A dominator that a path to a node does not visit dominates the node where that path starts. -/
theorem of_avoiding {first : α} {nodes : List α} (dominates : Dominates edge start upper lower)
    (reached : Reaches edge start first) (path : Path edge first nodes lower)
    (avoids : upper ∉ nodes) : Dominates edge start upper first := by
  refine ⟨reached, fun others early => ?_⟩
  obtain ⟨whole, wholePath, visits⟩ := early.exists_extended path
  exact (visits upper (dominates.mem_of_path whole wholePath)).resolve_right avoids

end Dominates

/-- The start has no strict dominator. -/
theorem StrictlyDominates.ne_start {edge : α → α → Prop} {start upper lower : α}
    (strict : StrictlyDominates edge start upper lower) : lower ≠ start := by
  rintro rfl
  exact strict.1 (strict.2.antisymm (.of_start strict.2.reaches_upper))

namespace Immediate

variable {edge : α → α → Prop} {start upper lower : α}

/-- There is only one closest strict dominator. -/
theorem unique {other : α} (left : Immediate edge start upper lower)
    (right : Immediate edge start other lower) : upper = other :=
  (right.closest upper left.strict).antisymm (left.closest other right.strict)

/-- The closest strict dominator of a node dominates the nodes whose edges lead there. -/
theorem dominates_source {source : α} (immediate : Immediate edge start upper lower)
    (reached : Reaches edge start source) (lastEdge : edge source lower) :
    Dominates edge start upper source := Dominates.of_edge immediate.strict reached lastEdge

/-- What dominates a node is the node or dominates its closest strict dominator. -/
theorem eq_or_dominates {other : α} (immediate : Immediate edge start upper lower)
    (dominates : Dominates edge start other lower) :
    other = lower ∨ Dominates edge start other upper := by
  by_cases same : other = lower
  · exact .inl same
  · exact .inr (immediate.closest other ⟨same, dominates⟩)

end Immediate

/-- The first element of a list that has a property splits the list. -/
theorem exists_first {holds : α → Prop} {list : List α} (found : ∃ node ∈ list, holds node) :
    ∃ before node after, list = before ++ node :: after ∧ holds node ∧
      ∀ other ∈ before, ¬ holds other := by
  induction list with
  | nil => simp at found
  | cons head tail tailIH =>
    by_cases here : holds head
    · exact ⟨[], head, tail, rfl, here, by simp⟩
    · have inTail : ∃ node ∈ tail, holds node := by
        obtain ⟨node, member, held⟩ := found
        rcases List.mem_cons.1 member with rfl | member
        · exact absurd held here
        · exact ⟨node, member, held⟩
      obtain ⟨before, node, after, rfl, held, none⟩ := tailIH inTail
      exact ⟨head :: before, node, after, rfl, held, by simpa [here] using none⟩

/-- A node that is reached and is not the start has a closest strict dominator: the last one on any
path to it. -/
theorem Reaches.exists_immediate {edge : α → α → Prop} {start lower : α}
    (reached : Reaches edge start lower) (notStart : lower ≠ start) :
    ∃ upper, Immediate edge start upper lower := by
  obtain ⟨nodes, path⟩ := reached
  have hasStrict : ∃ node ∈ nodes, StrictlyDominates edge start node lower :=
    ⟨start, path.start_mem, Ne.symm notStart, .of_start ⟨nodes, path⟩⟩
  obtain ⟨later, upper, earlier, rfl, strict, none⟩ := exists_first hasStrict
  refine ⟨upper, strict, fun other otherStrict => ?_⟩
  obtain ⟨cut, follow⟩ := path.splice
  refine ⟨⟨_, cut⟩, fun others toUpper => ?_⟩
  rcases List.mem_append.1 (otherStrict.2.mem_of_path _ (follow others toUpper)) with late | early
  · exact absurd otherStrict (none other late)
  · exact early

/-- What holds of the start, and of a node whenever it holds of its closest strict dominator, holds
of all that is reached. The closest strict dominator lies earlier on any path. -/
theorem Reaches.immediate_induction {edge : α → α → Prop} {start : α} (holds : α → Prop)
    (atStart : holds start)
    (step : ∀ upper lower, Immediate edge start upper lower → holds upper → holds lower)
    {node : α} (reached : Reaches edge start node) : holds node := by
  have general : ∀ (bound : Nat) (nodes : List α) (node : α), nodes.length ≤ bound →
      Path edge start nodes node → holds node := by
    intro bound
    induction bound with
    | zero =>
      intro nodes node short path
      have := List.length_pos_of_mem path.finish_mem
      omega
    | succ bound boundIH =>
      intro nodes node short path
      by_cases isStart : node = start
      · exact isStart ▸ atStart
      · obtain ⟨upper, immediate⟩ := Reaches.exists_immediate ⟨nodes, path⟩ isStart
        refine step upper node immediate ?_
        obtain ⟨later, earlier, rfl⟩ :=
          List.append_of_mem (immediate.strict.2.mem_of_path nodes path)
        have laterNonempty : later ≠ [] := by
          rintro rfl
          cases path <;> exact immediate.strict.1 rfl
        have laterPositive := List.length_pos_iff.2 laterNonempty
        refine boundIH _ _ ?_ path.splice.1
        simp only [List.length_append, List.length_cons] at short ⊢
        omega
  obtain ⟨nodes, path⟩ := reached
  exact general _ nodes node (Nat.le_refl _) path

/-- The dominators of a node dominate one another. -/
theorem Dominates.total {edge : α → α → Prop} {start left right lower : α}
    (leftDominates : Dominates edge start left lower)
    (rightDominates : Dominates edge start right lower) :
    Dominates edge start left right ∨ Dominates edge start right left := by
  refine Reaches.immediate_induction (fun lower => ∀ left right, Dominates edge start left lower →
    Dominates edge start right lower →
      Dominates edge start left right ∨ Dominates edge start right left) ?_ ?_
    leftDominates.reaches left right leftDominates rightDominates
  · intro left right leftDominates rightDominates
    have leftIs : left = start := by simpa using leftDominates.mem_of_path _ .start
    rw [leftIs]
    exact .inl (.of_start rightDominates.reaches_upper)
  · intro upper lower immediate upperIH left right leftDominates rightDominates
    rcases immediate.eq_or_dominates leftDominates with rfl | leftAbove
    · exact .inr rightDominates
    · rcases immediate.eq_or_dominates rightDominates with rfl | rightAbove
      · exact .inl leftDominates
      · exact upperIH left right leftAbove rightAbove

/-- Below a node, each node that it strictly dominates has one of its children above it. -/
theorem StrictlyDominates.exists_child {edge : α → α → Prop} {start upper lower : α}
    (strict : StrictlyDominates edge start upper lower) :
    ∃ child, Immediate edge start upper child ∧ Dominates edge start child lower := by
  refine Reaches.immediate_induction (fun lower => StrictlyDominates edge start upper lower →
    ∃ child, Immediate edge start upper child ∧ Dominates edge start child lower) ?_ ?_
    strict.2.reaches strict
  · exact fun strict => absurd rfl strict.ne_start
  · intro middle lower immediate middleIH strict
    by_cases isUpper : upper = middle
    · exact ⟨lower, isUpper ▸ immediate, .refl strict.2.reaches⟩
    · obtain ⟨child, isChild, above⟩ := middleIH ⟨isUpper, immediate.closest upper strict⟩
      exact ⟨child, isChild, above.trans immediate.strict.2⟩

/-- The subtrees below different children of a node have nothing in common. -/
theorem Immediate.child_unique {edge : α → α → Prop} {start upper left right lower : α}
    (leftChild : Immediate edge start upper left) (rightChild : Immediate edge start upper right)
    (leftAbove : Dominates edge start left lower) (rightAbove : Dominates edge start right lower) :
    left = right := by
  -- A child that dominated another one would dominate their common parent.
  have closed : ∀ {one other : α}, Immediate edge start upper one → Immediate edge start upper other →
      Dominates edge start one other → one = other := by
    intro one other oneChild otherChild dominates
    rcases otherChild.eq_or_dominates dominates with same | above
    · exact same
    · exact absurd (oneChild.strict.2.antisymm above) oneChild.strict.1
  rcases leftAbove.total rightAbove with above | above
  · exact closed leftChild rightChild above
  · exact (closed rightChild leftChild above).symm

end Midend
