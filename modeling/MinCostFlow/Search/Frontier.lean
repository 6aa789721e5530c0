import MinCostFlow.Potential
import MinCostFlow.Search.Label
import MinCostFlow.Search.Queue

/-! # A path search under way

The search keeps a label per node and a queue of nodes whose outgoing arcs are
still to be looked at. A node whose label improves joins the queue again; entries
that its later labels overtook stay behind and are skipped when their turn comes.
-/

namespace MinCostFlow

/-- Labels and waiting nodes. -/
structure Frontier (n : Nat) where
  labels : PerNode Label n
  queue : Queue n
  deriving Repr, DecidableEq

namespace Frontier

variable {n : Nat}

/-- Only the source has a label, and it waits. -/
def start (source : Fin n) (name : Int) : Frontier n where
  labels := (PerNode.all n Label.blank).put source Label.source
  queue := [{ dist := 0, node := source, name }]

/-- Look at one residual arc out of the node of `entry`, whose price is `price`.
    An arc with room that leads to its head more cheaply gives the head a new label.
    A way of `n` arcs visits some node twice and can only have grown around a cycle
    that costs less than nothing. -/
def relax (potential : Potential) (entry : Entry n) (price : Int) (frontier : Frontier n)
    (step : Residual n × Nat) : Except Fault (Frontier n) :=
  let (face, place) := step
  if face.room ≤ 0 then
    .ok frontier
  else do
    let dist := entry.dist + face.cost + price - (← Position.entry potential face.head.val)
    if (frontier.labels.entry face.head).dist ≤ dist then
      return frontier
    let label := (frontier.labels.entry entry.node).extend dist ⟨entry.name, place⟩ face
    if n ≤ label.hops then
      throw (.state .endlessPath)
    return {
      labels := frontier.labels.put face.head label
      queue := frontier.queue.insert { dist, node := face.head } }

/-- Look at every residual arc out of the node of `entry`. -/
def settle (net : Network n) (potential : Potential) (entry : Entry n) (frontier : Frontier n) :
    Except Fault (Frontier n) := do
  let price ← Position.entry potential entry.name
  (net.out entry.node).zipIdx.foldlM (relax potential entry price) frontier

/-- Take entries from the queue until it is empty, or until the goal is first, which
    the second answer tells. -/
def drain (net : Network n) (potential : Potential) (goal : Option Int) :
    (budget : Nat) → Frontier n → Except Fault (Frontier n × Bool)
  | budget, frontier =>
    match frontier.queue with
    | [] => .ok (frontier, false)
    | entry :: rest =>
      match budget with
      | 0 => .error .endless
      | budget + 1 =>
        if (frontier.labels.entry entry.node).dist ≠ entry.dist then
          drain net potential goal budget { frontier with queue := rest }
        else if goal = some entry.name then
          .ok (frontier, true)
        else do
          let next ← settle net potential entry { frontier with queue := rest }
          drain net potential goal budget next

end Frontier

end MinCostFlow
