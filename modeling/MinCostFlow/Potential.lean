import MinCostFlow.Network.Relaxation

/-! # Node prices

A potential is one integer per node. An arc `u → v` then has the reduced cost
`cost + potential u - potential v`, and sums of reduced costs along a path differ
from sums of costs by the potentials of its ends alone. Potentials that make every
usable arc cost at least zero let a search settle nodes in order of distance.
-/

namespace MinCostFlow

/-- The potential of each node, in node order. -/
abbrev Potential := Array Int

namespace Potential

variable {n : Nat}

def zero (n : Nat) : Potential := Array.replicate n 0

/-- A distance as a price. What was not reached gets zero: it lies on no path, and
    a price at the horizon would spoil the reduced costs of the arcs that touch it. -/
def ofDistance (dist : Int) : Int := if dist = horizon then 0 else dist

/-- The cheapest distances from a node over the open arcs. -/
def seed (net : Network n) (source : Fin n) : Potential :=
  ((Relaxation.origin source).rounds net.openArcs (n - 1)).dist.toArray.map ofDistance

def seedAt (net : Network n) (source : Int) : Except Fault Potential := do
  let source ← Position.slot n source
  return seed net source

/-- How far a node is raised after a search: by its distance, which counts only up
    to `limit` when the search ended early, and only if the node was reached when
    it did not. -/
def rise (limit : Option Int) (dist : Int) : Option Int :=
  match limit with
  | some limit => some (min dist limit)
  | none => if dist < horizon then some dist else none

/-- Add rises to the prices. A rise without a price to add it to is out of range. -/
def lift (potential : Potential) (rises : Array (Option Int)) : Except Fault Potential :=
  if (rises.drop potential.size).any Option.isSome then
    .error .outOfRange
  else
    .ok (potential.mapIdx fun v price => price + (rises[v]?.join).getD 0)

/-- Raise the prices by the distances of a search, so that the next search finds
    reduced costs of at least zero. When the search stopped at the sink, distances
    beyond that of the sink are only upper bounds, so nothing rises further. -/
def raise (potential : Potential) (dist : Array Int) (sink : Int) (stopped : Bool) :
    Except Fault Potential := do
  let limit ← if stopped then some <$> Position.entry dist sink else pure none
  potential.lift (dist.map (rise limit))

@[simp] theorem size_zero (n : Nat) : (zero n).size = n := by simp [zero]

@[simp] theorem size_seed (net : Network n) (source : Fin n) : (seed net source).size = n := by
  simp [seed]

theorem lift_of_size_le {potential : Potential} {rises : Array (Option Int)}
    (enough : rises.size ≤ potential.size) :
    potential.lift rises =
      .ok (potential.mapIdx fun v price => price + (rises[v]?.join).getD 0) := by
  have none_left : rises.drop potential.size = #[] := by
    apply Array.eq_empty_of_size_eq_zero
    simp
    omega
  simp [lift, none_left]

end Potential

end MinCostFlow
