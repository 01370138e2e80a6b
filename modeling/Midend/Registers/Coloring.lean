import Midend.Registers.Interference

/-! # Coloring

Registers for variables such that neighbours get different ones. A variable with fewer neighbours
than there are registers can be left for last, so such variables are taken out one after another and
then given registers in the opposite order. -/

namespace Midend

/-- Registers by variable. -/
abbrev Coloring := SortedMap String String

namespace Coloring

/-- The variable of least degree below a bound; of several, the first by name. -/
def pick? (graph : Interference) (bound : Nat) : Option String :=
  let step (best : Option String) (node : String) : Option String :=
    if bound ≤ graph.degree node then best
    else
      match best with
      | some other => if graph.degree node < graph.degree other then some node else best
      | none => some node
  graph.nodes.foldl step none

/-- Takes out variables of degree below a bound, `budget` of them at most; answers them, the last
one first, or else the variables that are left. -/
def simplifyFrom (bound : Nat) :
    (budget : Nat) → Interference → (taken : List String) → Except (List String) (List String)
  | 0, graph, taken => if graph.isEmpty then .ok taken else .error graph.nodes
  | budget + 1, graph, taken =>
    if graph.isEmpty then .ok taken
    else
      match pick? graph bound with
      | some node => simplifyFrom bound budget (graph.removeNode node) (node :: taken)
      | none => .error graph.nodes

/-- The order in which variables can be given one of `bound` registers, or else the variables that
are left when no further one can be put last. -/
def simplify (graph : Interference) (bound : Nat) : Except (List String) (List String) :=
  simplifyFrom bound graph.size graph []

/-- Gives each variable in turn the first register that none of its neighbours has; fails with the
variable for which there is none. -/
def assign (graph : Interference) (registers : List String) :
    List String → Coloring → Except (List String) Coloring
  | [], colors => .ok colors
  | node :: rest, colors =>
    let taken := (graph.neighbors node).toList.filterMap colors.get?
    match registers.find? fun register => !taken.contains register with
    | some free => assign graph registers rest (colors.insert node free)
    | none => .error [node]

/-- Gives every variable a register, or fails with variables that get none. -/
def ofInterference (graph : Interference) (registers : List String) :
    Except (List String) Coloring := do
  assign graph registers (← simplify graph registers.length) .empty

/-- Whether every variable has a register and neighbours have different ones. -/
def isValid (graph : Interference) (colors : Coloring) : Bool :=
  (graph.nodes.all fun node => colors.contains node) &&
    graph.edges.all fun (left, right) => colors.get? left != colors.get? right

end Coloring

end Midend
