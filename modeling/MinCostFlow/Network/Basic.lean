import MinCostFlow.Position

/-! # Networks and their residual arcs

A network over the nodes `0 … n - 1` is the list of its arcs in insertion order.
An arc stores what it may hold, what a unit on it costs and what it carries.

The residual network is a view. Each arc shows up twice: forwards with the room
that is left, and as a twin the other way round, whose room is the flow that can
be taken back and whose cost has the opposite sign. So the two rooms of an arc
add up to its capacity whatever is pushed, and dropping all flow restores the
network that was built.
-/

namespace MinCostFlow

/-- A directed arc and the flow on it. -/
structure Arc (n : Nat) where
  tail : Fin n
  head : Fin n
  /-- How much the arc may carry. -/
  capacity : Nat
  /-- The price of one unit. -/
  cost : Int
  /-- What the arc carries now. Pushing checks nothing, so this is any integer. -/
  flow : Int := 0
  deriving Repr, DecidableEq

namespace Arc

variable {n : Nat}

/-- The capacity that is left. -/
def room (arc : Arc n) : Int := arc.capacity - arc.flow

/-- An arc is open while something more fits on it. -/
def Open (arc : Arc n) : Prop := 0 < arc.room

instance (arc : Arc n) : Decidable arc.Open := inferInstanceAs (Decidable (0 < arc.room))

def drained (arc : Arc n) : Arc n := { arc with flow := 0 }

end Arc

/-- Nodes `0 … n - 1` and arcs between them in insertion order. -/
structure Network (n : Nat) where
  arcs : List (Arc n) := []
  deriving Repr, DecidableEq

/-- An arc as it is asked for, before anything is checked. -/
structure ArcRow where
  tail : Int
  head : Int
  capacity : Int
  cost : Int
  deriving Repr, DecidableEq

/-- One of the two faces of an arc in the residual network. -/
structure Residual (n : Nat) where
  /-- Position of the arc among the arcs of the network. -/
  arc : Nat
  /-- False for the twin, which runs against the arc. -/
  forward : Bool
  tail : Fin n
  head : Fin n
  /-- How much can be pushed along this face. -/
  room : Int
  /-- The room before anything was pushed. -/
  initial : Nat
  cost : Int
  deriving Repr, DecidableEq

/-- The name of a residual arc: its tail, and its place among the residual arcs
    that leave the tail. -/
structure ArcId where
  tail : Int
  index : Int
  deriving Repr, DecidableEq

namespace Arc

variable {n : Nat}

def along (arc : Arc n) (position : Nat) : Residual n where
  arc := position
  forward := true
  tail := arc.tail
  head := arc.head
  room := arc.room
  initial := arc.capacity
  cost := arc.cost

/-- The twin: what was sent can be taken back for the same price. -/
def against (arc : Arc n) (position : Nat) : Residual n where
  arc := position
  forward := false
  tail := arc.head
  head := arc.tail
  room := arc.flow
  initial := 0
  cost := -arc.cost

end Arc

namespace Network

variable {n : Nat}

def empty (n : Nat) : Network n := {}

def nodeCount (count : Int) : Except Fault Nat :=
  if count ≤ 0 then .error (.argument .noNodes) else .ok count.toNat

/-- Node `node` as an index, or the fault that there is no such node. -/
def node (n : Nat) (node : Int) : Except Fault (Fin n) :=
  if inside : 0 ≤ node ∧ node < n then .ok (Position.front inside)
  else .error (.argument (.nodeOutside node n))

/-- Both faces of every arc, in insertion order. -/
def residuals (net : Network n) : List (Residual n) :=
  net.arcs.zipIdx.flatMap fun (arc, position) => [arc.along position, arc.against position]

/-- The residual arcs that leave a node. The place in this list is what names a
    residual arc, and it stays the same when arcs are added. -/
def out (net : Network n) (u : Fin n) : List (Residual n) :=
  net.residuals.filter fun face => face.tail = u

/-- Append an arc. Its name is the next free place at its tail. -/
def addArc (net : Network n) (u v capacity cost : Int) : Except Fault (Network n × ArcId) := do
  let tail ← node n u
  let head ← node n v
  if capacity < 0 then
    throw (.argument .negativeCapacity)
  let arc : Arc n := { tail, head, capacity := capacity.toNat, cost }
  return ({ arcs := net.arcs ++ [arc] }, { tail := tail.val, index := (net.out tail).length })

def addRows (net : Network n) (rows : List ArcRow) : Except Fault (Network n) :=
  rows.foldlM (fun net row => Prod.fst <$> net.addArc row.tail row.head row.capacity row.cost) net

/-- The residual arcs that leave the node at a position, counted from either end. -/
def outOf (net : Network n) (u : Int) : Except Fault (List (Residual n)) := do
  let u ← Position.slot n u
  return net.out u

/-- The residual arc of a name. The tail has to be a node as it stands, while the
    place is counted from either end. -/
def edge (net : Network n) (id : ArcId) : Except Fault (Residual n) := do
  let u ← node n id.tail
  Position.entry (net.out u).toArray id.index

/-- The place of the other face of the same arc, among the arcs that leave the head. -/
def twinIndex (net : Network n) (face : Residual n) : Nat :=
  (net.out face.head).findIdx fun other => other.arc = face.arc ∧ other.forward ≠ face.forward

/-- The other face of the same arc. -/
def twin (net : Network n) (face : Residual n) : Except Fault (Residual n) :=
  Position.entry (net.out face.head).toArray (net.twinIndex face)

/-- What has been sent along a residual arc since it was made. -/
def flow (net : Network n) (id : ArcId) : Except Fault Int := do
  let face ← net.edge id
  return face.initial - face.room

def residualCapacity (net : Network n) (id : ArcId) : Except Fault Int := do
  let face ← net.edge id
  return face.room

/-- Send `amount` units along one face, whatever room it has. -/
def pushAlong (net : Network n) (face : Residual n) (amount : Int) : Network n where
  arcs := net.arcs.modify face.arc fun arc =>
    { arc with flow := if face.forward then arc.flow + amount else arc.flow - amount }

/-- Send `amount` units along the residual arc of a name, tail and place being
    counted from either end. -/
def push (net : Network n) (id : ArcId) (amount : Int) : Except Fault (Network n) := do
  let leaving ← net.outOf id.tail
  let face ← Position.entry leaving.toArray id.index
  return net.pushAlong face amount

def reset (net : Network n) : Network n where
  arcs := net.arcs.map Arc.drained

def forwards (net : Network n) : List (Residual n) :=
  net.arcs.zipIdx.map fun (arc, position) => arc.along position

/-- The open arcs, by tail first and by insertion among those of one tail. -/
def openArcs (net : Network n) : List (Arc n) :=
  (List.finRange n).flatMap fun u => net.arcs.filter fun arc => arc.tail = u ∧ arc.Open

end Network

end MinCostFlow
