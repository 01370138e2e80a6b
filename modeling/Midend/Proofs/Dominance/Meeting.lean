import Midend.Proofs.Path

/-! # Where paths meet

A node lies beyond another if an edge from something that this one dominates leads there, but it does
not strictly dominate it. Consider nodes that include whatever lies beyond one of them. The last of
them on a path dominates where the path ends (`Path.exists_guard`), so two paths from them that meet
at their end and nowhere before lead to a node beyond one of them (`Path.holds_of_meeting`): otherwise
the guards on both paths would dominate each other. -/

namespace Midend

variable {α : Type} {edge : α → α → Prop} {start : α}

/-- The frontier of a node: targets of edges from what it dominates, unless it strictly dominates
them too. -/
def Beyond (edge : α → α → Prop) (start node target : α) : Prop :=
  ∃ source, Dominates edge start node source ∧ edge source target ∧
    ¬StrictlyDominates edge start node target

/-- What is led to from below a node and does not lie beyond it is strictly below it. -/
theorem Dominates.strictly_of_edge {upper source target : α}
    (dominates : Dominates edge start upper source) (lastEdge : edge source target)
    (inside : ¬Beyond edge start upper target) : StrictlyDominates edge start upper target := by
  by_contra notStrict
  exact inside ⟨source, dominates, lastEdge, notStrict⟩

namespace Path

variable {first last : α} {nodes : List α}

/-- On a path from a site there is a site, the last one, that dominates where the path ends, provided
that what lies beyond a site is one. -/
theorem exists_guard (sites : α → Prop) (path : Path edge first nodes last)
    (reached : Reaches edge start first) (isSite : sites first)
    (closed : ∀ node target, sites node → Beyond edge start node target → sites target) :
    ∃ guard ∈ nodes, sites guard ∧ Dominates edge start guard last := by
  induction path with
  | start => exact ⟨first, List.mem_singleton_self _, isSite, .refl reached⟩
  | @step nodes here next _ lastEdge shorterIH =>
    obtain ⟨guard, member, guardSite, dominates⟩ := shorterIH
    by_cases nextSite : sites next
    · exact ⟨next, List.mem_cons_self .., nextSite, .refl (dominates.reaches.step lastEdge)⟩
    · have inside : ¬Beyond edge start guard next := fun beyond =>
        nextSite (closed guard next guardSite beyond)
      exact ⟨guard, List.mem_cons_of_mem _ member, guardSite,
        (dominates.strictly_of_edge lastEdge inside).2⟩

/-- Two paths from sites meet only in a node beyond a site: a node is beyond one if an edge from the
end of each path leads there and the paths have no other node in common. -/
theorem holds_of_meeting {sites joins : α → Prop} (closed : ∀ node target, sites node ∨ joins node →
      Beyond edge start node target → joins target)
    {left right leftLast rightLast finish : α} {leftNodes rightNodes : List α}
    (leftPath : Path edge left leftNodes leftLast) (leftEdge : edge leftLast finish)
    (rightPath : Path edge right rightNodes rightLast) (rightEdge : edge rightLast finish)
    (leftReached : Reaches edge start left) (rightReached : Reaches edge start right)
    (leftSite : sites left) (rightSite : sites right)
    (meet : ∀ node ∈ leftNodes, node ∈ rightNodes → node = finish) : joins finish := by
  by_contra free
  -- The last site on a path strictly dominates the node where they meet.
  have guarded : ∀ {first last : α} {nodes : List α}, Path edge first nodes last →
      edge last finish → Reaches edge start first → sites first →
      ∃ guard ∈ nodes, StrictlyDominates edge start guard finish := by
    intro first last nodes path lastEdge reached isSite
    obtain ⟨guard, member, guardSite, dominates⟩ :=
      path.exists_guard (fun node => sites node ∨ joins node) reached (.inl isSite)
        fun node target held beyond => .inr (closed node target held beyond)
    exact ⟨guard, member, dominates.strictly_of_edge lastEdge fun beyond =>
      free (closed guard finish guardSite beyond)⟩
  -- A guard that is not on the other path dominates the guard that is.
  have above : ∀ {first last guard other : α} {nodes : List α}, Path edge first nodes last →
      edge last finish → guard ∈ nodes → StrictlyDominates edge start guard finish →
      other ∉ nodes → StrictlyDominates edge start other finish →
      Dominates edge start other guard := by
    intro first last guard other nodes path lastEdge member strict absent otherStrict
    obtain ⟨rest, restPath, subset⟩ := path.exists_rest member
    refine otherStrict.2.of_avoiding strict.2.reaches_upper (restPath.step lastEdge) fun visited => ?_
    exact (List.mem_cons.1 visited).elim otherStrict.1 fun earlier => absent (subset earlier)
  obtain ⟨leftGuard, leftMem, leftStrict⟩ := guarded leftPath leftEdge leftReached leftSite
  obtain ⟨rightGuard, rightMem, rightStrict⟩ := guarded rightPath rightEdge rightReached rightSite
  have leftAbove := above rightPath rightEdge rightMem rightStrict
    (fun inRight => leftStrict.1 (meet leftGuard leftMem inRight)) leftStrict
  have rightAbove := above leftPath leftEdge leftMem leftStrict
    (fun inLeft => rightStrict.1 (meet rightGuard inLeft rightMem)) rightStrict
  have same := leftAbove.antisymm rightAbove
  exact leftStrict.1 (meet leftGuard leftMem (same ▸ rightMem))

end Path

end Midend
