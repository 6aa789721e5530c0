import MinCostFlow.Network.Relaxation

/-! # Checks for negative costs among the open arcs

Residual twins play no part here: the checks look at the arcs as they were added,
as far as they have room. A cycle that costs less than nothing keeps improving
distances for ever, so one exists exactly when round `n` still improves something.
-/

namespace MinCostFlow

namespace Relaxation

variable {n : Nat}

/-- Go back over the arcs that improved the nodes. -/
def back (state : Relaxation n) : (steps : Nat) → Fin n → Option (Fin n)
  | 0, v => some v
  | steps + 1, v => (state.via.entry v).bind (state.back steps)

/-- Put what lies before `v` in front of a piece of a cycle, up to the node `last`
    that closes it. A cycle visits no node twice, so `n` steps are enough. -/
def closeCycle (state : Relaxation n) (last : Fin n) :
    (budget : Nat) → Fin n → List (Fin n) → Option (List (Fin n))
  | 0, _, _ => none
  | budget + 1, v, piece =>
    (state.via.entry v).bind fun u =>
      if u = last then some (u :: piece) else state.closeCycle last budget u (u :: piece)

/-- The cycle of improving arcs that lies `n` steps before a node, its first node
    repeated at the end. -/
def cycleBefore (state : Relaxation n) (v : Fin n) : Option (List (Fin n)) :=
  (state.back n v).bind fun last => state.closeCycle last n last [last]

end Relaxation

namespace Network

variable {n : Nat}

def hasNegativeCost (net : Network n) : Bool :=
  net.arcs.any fun arc => arc.Open ∧ arc.cost < 0

/-- The distances after at most `n` rounds from zero everywhere. -/
def settled (net : Network n) : Relaxation n :=
  (Relaxation.everywhere n).rounds net.openArcs n

def hasNegativeCycle (net : Network n) : Bool :=
  net.settled.moved.isSome

/-- A cycle of open arcs that costs less than nothing, if there is one. -/
def findNegativeCycle (net : Network n) : Except Fault (Option (List (Fin n))) :=
  match net.settled.moved with
  | none => .ok none
  | some v =>
    match net.settled.cycleBefore v with
    | some cycle => .ok (some cycle)
    | none => .error .strayTrail

end Network

end MinCostFlow
