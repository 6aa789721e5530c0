import MinCostFlow.Search.Frontier
import MinCostFlow.Search.Trail

/-! # Cheapest paths in reduced costs

A search visits nodes by distance over the residual arcs with room. If reduced costs
are at least zero it may stop when the sink is first in the queue; if some are below
zero it is still right, as long as it is allowed to empty the queue.
-/

namespace MinCostFlow

/-- What a search leaves behind. -/
structure Reach (n : Nat) where
  labels : PerNode Label n
  /-- The sink has a distance. -/
  reachedSink : Bool
  /-- The search ended because the sink was first in the queue. -/
  stoppedAtSink : Bool
  deriving Repr, DecidableEq

namespace Reach

variable {n : Nat}

def column (reach : Reach n) (entry : Label → Int) : Array Int := reach.labels.toArray.map entry

def dist (reach : Reach n) : Array Int := reach.column Label.dist

def bottleneck (reach : Reach n) : Array Int := reach.column Label.bottleneck

def parentNode (reach : Reach n) : Array Int := reach.column Label.parentNode

def parentPlace (reach : Reach n) : Array Int := reach.column Label.parentPlace

def pathCost (reach : Reach n) : Array Int := reach.column Label.pathCost

def trail (reach : Reach n) (source sink : Int) : Except Fault (List ArcId) :=
  Trail.between reach.dist reach.parentNode reach.parentPlace source sink

end Reach

namespace Network

variable {n : Nat}

/-- Enough steps for any search. Labels only fall, and each stands for a way of fewer
    than `n` arcs, so none falls below the horizon by more than such a way and two
    prices per arc can save. Each step either drops an entry or lowers a label and adds
    one. -/
def searchBudget (net : Network n) (potential : Potential) : Nat :=
  let costs := net.arcs.foldl (fun sum arc => sum + arc.cost.natAbs) 0
  let prices := potential.toList.foldl (fun sum price => sum + price.natAbs) 0
  2 * n * (horizon.toNat + n * (costs + 2 * prices)) + 1

/-- Search for the cheapest path from source to sink in reduced costs. Terminals are
    counted from either end; a source counted from the back keeps its name. -/
def search (net : Network n) (source sink : Int) (potential : Potential)
    (stopAtSink : Bool := true) : Except Fault (Reach n) := do
  let start ← Position.slot n source
  let goal := if stopAtSink then some sink else none
  let (frontier, stopped) ←
    Frontier.drain net potential goal (net.searchBudget potential) (.start start source)
  let target ← Position.slot n sink
  return {
    labels := frontier.labels
    reachedSink := (frontier.labels.entry target).dist ≠ horizon
    stoppedAtSink := stopped }

end Network

end MinCostFlow
