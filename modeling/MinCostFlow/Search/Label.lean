import MinCostFlow.Network.Relaxation

/-! # What a path search knows about a node -/

namespace MinCostFlow

/-- The residual arc by which a node was reached: the name of the node before it,
    and the place of the arc among those that leave that node. -/
structure Link where
  node : Int
  place : Nat
  deriving Repr, DecidableEq

/-- The best way to a node so far. -/
structure Label where
  /-- What the way costs in reduced costs, `horizon` while there is none. -/
  dist : Int := horizon
  /-- The least room on the way. -/
  bottleneck : Int := 0
  /-- The last arc of the way. -/
  parent : Option Link := none
  /-- What the way costs in true costs. -/
  pathCost : Int := 0
  /-- How many arcs the way has. -/
  hops : Nat := 0
  deriving Repr, DecidableEq

namespace Label

def blank : Label := {}

/-- The node where a search begins: everything fits on the way that has no arcs. -/
def source : Label := { dist := 0, bottleneck := horizon }

def extend {n : Nat} (tail : Label) (dist : Int) (link : Link) (face : Residual n) : Label where
  dist := dist
  bottleneck := min tail.bottleneck face.room
  parent := some link
  pathCost := tail.pathCost + face.cost
  hops := tail.hops + 1

/-- The node before this one, `-1` for none. -/
def parentNode (label : Label) : Int :=
  match label.parent with
  | some link => link.node
  | none => -1

/-- The place of the last arc at the node before this one, `-1` for none. -/
def parentPlace (label : Label) : Int :=
  match label.parent with
  | some link => link.place
  | none => -1

end Label

end MinCostFlow
