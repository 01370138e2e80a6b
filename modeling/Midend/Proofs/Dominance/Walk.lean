import Midend.Proofs.Dominance.Tree

/-! # Walks down a tree

A walk visits the blocks of a tree in pre-order with a state, and hands down from each block what its
children start from. Seen from the list of visits, each block starts from what the block above it
handed down (`Tree.exists_walk`). -/

namespace Midend

namespace Dominance

variable {σ τ ι : Type}

mutual

/-- Visits the blocks of a tree; what a block hands down goes to the trees below it. -/
def Tree.walk (visit : String → τ → σ → Except Error (τ × σ)) : Tree → τ → σ → Except Error σ
  | .node name children, inherited, state => do
    let (inherited, state) ← visit name inherited state
    walkAll visit children inherited state

/-- Visits the blocks of several trees that start alike. -/
def Tree.walkAll (visit : String → τ → σ → Except Error (τ × σ)) :
    List Tree → τ → σ → Except Error σ
  | [], _, state => .ok state
  | tree :: rest, inherited, state => do
    let state ← tree.walk visit inherited state
    walkAll visit rest inherited state

end

/-- What a block starts from: what the block above it handed down, or the start. -/
def inheritedFrom (start : τ) (pass : ι → τ) (records : String → ι) : Option String → τ
  | some upper => pass (records upper)
  | none => start

/-- Visits one after another, each with a record of what was done; a block starts from what the
record of the block above it passes on. -/
inductive Walk (visited : String → τ → σ → ι → σ → Prop) (start : τ) (pass : ι → τ)
    (records : String → ι) : List (String × Option String) → σ → σ → Prop where
  /-- No visit. -/
  | nil (state : σ) : Walk visited start pass records [] state state
  /-- A visit and those after it. -/
  | cons {name : String} {parent : Option String} {rest : List (String × Option String)}
      {state next last : σ} :
      visited name (inheritedFrom start pass records parent) state (records name) next →
        Walk visited start pass records rest next last →
          Walk visited start pass records ((name, parent) :: rest) state last

namespace Walk

variable {visited : String → τ → σ → ι → σ → Prop} {start : τ} {pass : ι → τ}
  {records : String → ι}

/-- Visits may be done in two parts. -/
theorem append {first second : List (String × Option String)} {state middle last : σ}
    (left : Walk visited start pass records first state middle)
    (right : Walk visited start pass records second middle last) :
    Walk visited start pass records (first ++ second) state last := by
  induction left with
  | nil => exact right
  | cons step _ restIH => exact .cons step (restIH right)

/-- Visits depend only on the records of the blocks that they name. -/
theorem congr {others : String → ι} {visits : List (String × Option String)} {state last : σ}
    (walk : Walk visited start pass records visits state last)
    (same : ∀ name parent, (name, parent) ∈ visits → others name = records name ∧
      inheritedFrom start pass others parent = inheritedFrom start pass records parent) :
    Walk visited start pass others visits state last := by
  induction walk with
  | nil => exact .nil _
  | cons step _ restIH =>
    obtain ⟨here, above⟩ := same _ _ (List.mem_cons_self ..)
    refine .cons ?_ (restIH fun name parent member => same name parent (List.mem_cons_of_mem _ member))
    rwa [here, above]

/-- Every visit took place. -/
theorem exists_visit {visits : List (String × Option String)} {state last : σ}
    (walk : Walk visited start pass records visits state last) {name : String}
    {parent : Option String} (member : (name, parent) ∈ visits) :
    ∃ before after, visited name (inheritedFrom start pass records parent) before (records name)
      after := by
  induction walk with
  | nil => cases member
  | cons step _ restIH =>
    rcases List.mem_cons.1 member with same | inRest
    · obtain ⟨rfl, rfl⟩ := Prod.mk.inj same
      exact ⟨_, _, step⟩
    · exact restIH inRest

/-- What holds at the start and is kept by every visit holds at the end, where what holds may depend
on the blocks visited so far. -/
theorem invariant (holds : List String → σ → Prop) (done : List (String × Option String))
    {visits : List (String × Option String)} {state last : σ}
    (walk : Walk visited start pass records visits state last)
    (atStart : holds (done.map Prod.fst) state)
    (kept : ∀ before name parent after state next, done ++ visits = before ++ (name, parent) :: after →
      holds (before.map Prod.fst) state →
      visited name (inheritedFrom start pass records parent) state (records name) next →
        holds (before.map Prod.fst ++ [name]) next) :
    holds ((done ++ visits).map Prod.fst) last := by
  induction walk generalizing done with
  | nil => rwa [List.append_nil]
  | @cons name parent rest state next last step _ restIH =>
    have here := kept done name parent rest state next rfl atStart step
    have shifted : done ++ (name, parent) :: rest = (done ++ [(name, parent)]) ++ rest := by simp
    rw [shifted]
    refine restIH _ ?_ ?_
    · rw [List.map_append]
      exact here
    · rw [← shifted]
      exact kept

end Walk

mutual

/-- The parent of a visit stands above the tree or in it. -/
theorem Tree.parent_cases {above parent : Option String} {name : String} :
    (tree : Tree) → (name, parent) ∈ tree.visits above →
      parent = above ∨ ∃ upper ∈ tree.preorder, parent = some upper
  | .node root children, member => by
    rw [Tree.visits] at member
    rcases List.mem_cons.1 member with same | below
    · exact .inl (Prod.mk.inj same).2
    · right
      rw [Tree.preorder]
      rcases parentAll_cases children below with isRoot | ⟨upper, inside, isUpper⟩
      · exact ⟨root, List.mem_cons_self .., isRoot⟩
      · exact ⟨upper, List.mem_cons_of_mem _ inside, isUpper⟩

/-- The parent of a visit stands above the trees or in one of them. -/
theorem Tree.parentAll_cases {above parent : Option String} {name : String} :
    (trees : List Tree) → (name, parent) ∈ Tree.visitsAll above trees →
      parent = above ∨ ∃ upper ∈ Tree.preorderAll trees, parent = some upper
  | [], member => by cases member
  | tree :: rest, member => by
    rw [Tree.visitsAll] at member
    rw [Tree.preorderAll]
    rcases List.mem_append.1 member with inTree | inRest
    · rcases parent_cases tree inTree with same | ⟨upper, inside, isUpper⟩
      · exact .inl same
      · exact .inr ⟨upper, List.mem_append_left _ inside, isUpper⟩
    · rcases parentAll_cases rest inRest with same | ⟨upper, inside, isUpper⟩
      · exact .inl same
      · exact .inr ⟨upper, List.mem_append_right _ inside, isUpper⟩

end

/-- A visit is of a block of the tree. -/
theorem Tree.mem_preorder_of_visit {tree : Tree} {above parent : Option String} {name : String}
    (member : (name, parent) ∈ tree.visits above) : name ∈ tree.preorder := by
  rw [← Tree.map_fst_visits above tree]
  exact List.mem_map_of_mem member

section Records

variable {visit : String → τ → σ → Except Error (τ × σ)}
  {visited : String → τ → σ → ι → σ → Prop} {start : τ} {pass : ι → τ}

mutual

/-- A walk down a tree of distinct blocks leaves a record of each, and changes no other. -/
theorem Tree.walk_records
    (spec : ∀ {name inherited state out next}, visit name inherited state = .ok (out, next) →
      ∃ record, visited name inherited state record next ∧ pass record = out)
    (above : Option String) (known : String → ι) :
    (tree : Tree) → {state last : σ} → tree.preorder.Nodup →
      (∀ upper ∈ tree.preorder, above ≠ some upper) →
      tree.walk visit (inheritedFrom start pass known above) state = .ok last →
      ∃ records, (∀ name, name ∉ tree.preorder → records name = known name) ∧
        Walk visited start pass records (tree.visits above) state last
  | .node name children, state, last, nodup, outside, walked => by
    rw [Tree.walk] at walked
    obtain ⟨⟨out, next⟩, here, below⟩ := Attempt.bind_eq_ok.1 walked
    obtain ⟨record, isRecord, passes⟩ := spec here
    rw [Tree.preorder, List.nodup_cons] at nodup
    -- The children start from the record of this block.
    obtain ⟨records, unchanged, walk⟩ := walkAll_records spec (some name)
      (Function.update known name record) children nodup.2
      (fun upper inside same => nodup.1 (by rw [Option.some.inj same]; exact inside))
      (by rw [inheritedFrom, Function.update_self, passes]; exact below)
    have atName : records name = record := by
      rw [unchanged name nodup.1, Function.update_self]
    refine ⟨records, fun other absent => ?_, ?_⟩
    · rw [Tree.preorder, List.mem_cons, not_or] at absent
      rw [unchanged other absent.2, Function.update_of_ne absent.1]
    · rw [Tree.visits]
      refine .cons ?_ walk
      rw [atName]
      have sameAbove : inheritedFrom start pass records above =
          inheritedFrom start pass known above := by
        cases above with
        | none => rfl
        | some upper =>
          have apart : upper ∉ name :: Tree.preorderAll children := fun inside =>
            outside upper (by rw [Tree.preorder]; exact inside) rfl
          rw [List.mem_cons, not_or] at apart
          rw [inheritedFrom, inheritedFrom, unchanged upper apart.2,
            Function.update_of_ne apart.1]
      rw [sameAbove]
      exact isRecord

/-- A walk down several trees of distinct blocks leaves a record of each, and changes no other. -/
theorem Tree.walkAll_records
    (spec : ∀ {name inherited state out next}, visit name inherited state = .ok (out, next) →
      ∃ record, visited name inherited state record next ∧ pass record = out)
    (above : Option String) (known : String → ι) :
    (trees : List Tree) → {state last : σ} → (Tree.preorderAll trees).Nodup →
      (∀ upper ∈ Tree.preorderAll trees, above ≠ some upper) →
      Tree.walkAll visit trees (inheritedFrom start pass known above) state = .ok last →
      ∃ records, (∀ name, name ∉ Tree.preorderAll trees → records name = known name) ∧
        Walk visited start pass records (Tree.visitsAll above trees) state last
  | [], state, last, _, _, walked => by
    obtain rfl := Except.ok.inj walked
    exact ⟨known, fun _ _ => rfl, .nil _⟩
  | tree :: rest, state, last, nodup, outside, walked => by
    rw [Tree.walkAll] at walked
    obtain ⟨next, here, later⟩ := Attempt.bind_eq_ok.1 walked
    rw [Tree.preorderAll, List.nodup_append] at nodup
    obtain ⟨nodupTree, nodupRest, apart⟩ := nodup
    have outsideTree : ∀ upper ∈ tree.preorder, above ≠ some upper := fun upper inside =>
      outside upper (by rw [Tree.preorderAll]; exact List.mem_append_left _ inside)
    have outsideRest : ∀ upper ∈ Tree.preorderAll rest, above ≠ some upper := fun upper inside =>
      outside upper (by rw [Tree.preorderAll]; exact List.mem_append_right _ inside)
    obtain ⟨first, unchanged, walk⟩ := walk_records spec above known tree nodupTree outsideTree here
    have sameAbove : inheritedFrom start pass first above =
        inheritedFrom start pass known above := by
      cases above with
      | none => rfl
      | some upper =>
        rw [inheritedFrom, inheritedFrom, unchanged upper fun inside => outsideTree upper inside rfl]
    rw [← sameAbove] at later
    obtain ⟨records, unchangedRest, walkRest⟩ :=
      walkAll_records spec above first rest nodupRest outsideRest later
    refine ⟨records, fun name absent => ?_, ?_⟩
    · rw [Tree.preorderAll, List.mem_append, not_or] at absent
      rw [unchangedRest name absent.2, unchanged name absent.1]
    · rw [Tree.visitsAll]
      refine (walk.congr fun name parent member => ?_).append walkRest
      have inTree : ∀ {other}, other ∈ tree.preorder → records other = first other :=
        fun inside => unchangedRest _ fun inRest => apart _ inside _ inRest rfl
      refine ⟨inTree (Tree.mem_preorder_of_visit member), ?_⟩
      rcases Tree.parent_cases tree member with rfl | ⟨upper, inside, rfl⟩
      · cases parent with
        | none => rfl
        | some upper =>
          rw [inheritedFrom, inheritedFrom,
            unchangedRest upper fun inside => outsideRest upper inside rfl]
      · rw [inheritedFrom, inheritedFrom, inTree inside]

end

mutual

/-- What every visit keeps holds after a walk, and a walk fails only as its visits do. What is kept
may depend on the number of visits to come, and on what is handed down being good. -/
theorem Tree.walk_cases (good : τ → Prop) (holds : Nat → σ → Prop) (bad : Error → Prop) :
    (tree : Tree) → {inherited : τ} → {state : σ} → {left : Nat} →
      (∀ name ∈ tree.preorder, ∀ inherited state left, good inherited → holds (left + 1) state →
        (∀ out next, visit name inherited state = .ok (out, next) → good out ∧ holds left next) ∧
          ∀ error, visit name inherited state = .error error → bad error) →
      good inherited → holds (left + tree.preorder.length) state →
      (∀ last, tree.walk visit inherited state = .ok last → holds left last) ∧
        ∀ error, tree.walk visit inherited state = .error error → bad error
  | .node name children, inherited, state, left, visits, isGood, held => by
    rw [Tree.preorder, List.length_cons] at held
    rw [Tree.preorder] at visits
    obtain ⟨keeps, fails⟩ := visits name (List.mem_cons_self ..) inherited state _ isGood held
    have below := fun {out : τ} {next : σ} goodOut holdsNext =>
      @walkAll_cases good holds bad children out next left (fun other member =>
        visits other (List.mem_cons_of_mem _ member)) goodOut holdsNext
    rw [Tree.walk]
    constructor
    · intro last walked
      obtain ⟨⟨out, next⟩, here, walked⟩ := Attempt.bind_eq_ok.1 walked
      obtain ⟨goodOut, holdsNext⟩ := keeps out next here
      exact (below goodOut holdsNext).1 last walked
    · intro error failed
      rcases Attempt.bind_eq_error.1 failed with failed | ⟨⟨out, next⟩, here, failed⟩
      · exact fails error failed
      · obtain ⟨goodOut, holdsNext⟩ := keeps out next here
        exact (below goodOut holdsNext).2 error failed

/-- What every visit keeps holds after several walks, and they fail only as their visits do. -/
theorem Tree.walkAll_cases (good : τ → Prop) (holds : Nat → σ → Prop) (bad : Error → Prop) :
    (trees : List Tree) → {inherited : τ} → {state : σ} → {left : Nat} →
      (∀ name ∈ Tree.preorderAll trees, ∀ inherited state left, good inherited →
        holds (left + 1) state →
        (∀ out next, visit name inherited state = .ok (out, next) → good out ∧ holds left next) ∧
          ∀ error, visit name inherited state = .error error → bad error) →
      good inherited → holds (left + (Tree.preorderAll trees).length) state →
      (∀ last, Tree.walkAll visit trees inherited state = .ok last → holds left last) ∧
        ∀ error, Tree.walkAll visit trees inherited state = .error error → bad error
  | [], inherited, state, left, _, _, held => by
    refine ⟨fun last walked => ?_, fun error failed => ?_⟩
    · rw [← Except.ok.inj walked]
      exact held
    · cases failed
  | tree :: rest, inherited, state, left, visits, isGood, held => by
    rw [Tree.preorderAll, List.length_append, Nat.add_comm tree.preorder.length, ← Nat.add_assoc]
      at held
    rw [Tree.preorderAll] at visits
    obtain ⟨keeps, fails⟩ := walk_cases good holds bad tree (fun name member =>
      visits name (List.mem_append_left _ member)) isGood held
    -- The first walk uses up what its visits need, and what is left over is enough for the rest.
    have later := fun {next : σ} holdsNext =>
      @walkAll_cases good holds bad rest inherited next left (fun name member =>
        visits name (List.mem_append_right _ member)) isGood holdsNext
    rw [Tree.walkAll]
    constructor
    · intro last walked
      obtain ⟨next, here, walked⟩ := Attempt.bind_eq_ok.1 walked
      exact (later (keeps next here)).1 last walked
    · intro error failed
      rcases Attempt.bind_eq_error.1 failed with failed | ⟨next, here, failed⟩
      · exact fails error failed
      · exact (later (keeps next here)).2 error failed

end

variable (visit) in
/-- A walk down a tree of distinct blocks, as a list of visits. -/
theorem Tree.exists_walk [Inhabited ι]
    (spec : ∀ {name inherited state out next}, visit name inherited state = .ok (out, next) →
      ∃ record, visited name inherited state record next ∧ pass record = out)
    {tree : Tree} (nodup : tree.preorder.Nodup) {state last : σ}
    (walked : tree.walk visit start state = .ok last) :
    ∃ records, Walk visited start pass records (tree.visits none) state last := by
  obtain ⟨records, _, walk⟩ :=
    Tree.walk_records spec none (fun _ => default) tree nodup (fun _ _ => nofun) walked
  exact ⟨records, walk⟩

end Records

end Dominance

end Midend
