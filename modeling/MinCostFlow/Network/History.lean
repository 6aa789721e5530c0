import MinCostFlow.Network.Flow
import MinCostFlow.Solver

/-! # What can happen to a network

A network changes only by adding arcs, pushing, dropping all flow, and solving. A history
is a list of such operations, some of which may be refused. What was built in its course
are the arcs of the additions that succeeded.
-/

namespace MinCostFlow

/-- One operation on a network. -/
inductive Operation where
  | addArc (row : ArcRow)
  | push (id : ArcId) (amount : Int)
  | reset
  | solve (source sink : Int) (options : Options)
  deriving Repr, DecidableEq

/-- Operations, first one first. -/
abbrev History := List Operation

/-- An arc that was asked for and granted. -/
structure Admission where
  row : ArcRow
  /-- The name that was answered. -/
  id : ArcId
  /-- The place that was taken by the twin. -/
  twin : ArcId
  deriving Repr, DecidableEq

namespace Network

variable {n : Nat}

/-- The network after an operation; one that is refused changes nothing, while a solve
    that fails midway keeps what it had sent. -/
def apply (net : Network n) : Operation → Network n
  | .addArc row =>
    match net.addArc row.tail row.head row.capacity row.cost with
    | .ok (next, _) => next
    | .error _ => net
  | .push id amount =>
    match net.push id amount with
    | .ok next => next
    | .error _ => net
  | .reset => net.reset
  | .solve source sink options => (net.solve source sink options).network

def replay (net : Network n) (history : History) : Network n := history.foldl apply net

/-- The next free place at a node. -/
def freePlace (net : Network n) (u : Int) : Nat :=
  match net.outOf u with
  | .ok leaving => leaving.length
  | .error _ => 0

/-- What an operation adds to the network, if it asks for an arc and is not refused. The twin
    takes the next free place at the head, and that is right behind the arc if the arc is a
    loop. -/
def admission? (net : Network n) : Operation → Option Admission
  | .addArc row =>
    match net.addArc row.tail row.head row.capacity row.cost with
    | .ok (_, id) =>
      let behind := if row.tail = row.head then 1 else 0
      some { row, id, twin := { tail := row.head, index := net.freePlace row.head + behind } }
    | .error _ => none
  | _ => none

def admissions (net : Network n) : History → List Admission
  | [] => []
  | operation :: rest => (net.admission? operation).toList ++ (net.apply operation).admissions rest

end Network

end MinCostFlow
