import MinCostFlow.Network.Basic
import MinCostFlow.PerNode

/-! # Rounds of relaxation over the open arcs

Distances are improved in place, arc by arc. A round visits every given arc once,
and the rounds end as soon as one of them improves nothing. Started from one node
this gives the cheapest ways out of it; started with zero everywhere it shows
whether some cycle costs less than nothing.
-/

namespace MinCostFlow

/-- A distance at the horizon, which is `10 ^ 18`, reads as "not reached". -/
def horizon : Int := 1000000000000000000

/-- Tentative distances, and where each was last improved from. -/
structure Relaxation (n : Nat) where
  dist : PerNode Int n
  /-- The tail of the arc that last improved the node. -/
  via : PerNode (Option (Fin n)) n
  /-- The node improved last in the current round. -/
  moved : Option (Fin n)
  deriving Repr, DecidableEq

namespace Relaxation

variable {n : Nat}

def everywhere (n : Nat) : Relaxation n where
  dist := .all n 0
  via := .all n none
  moved := none

def origin (source : Fin n) : Relaxation n where
  dist := (PerNode.all n horizon).put source 0
  via := .all n none
  moved := none

/-- Improve the head of an arc if the arc offers a cheaper way, provided that its
    tail has been reached. -/
def improve (state : Relaxation n) (arc : Arc n) : Relaxation n :=
  let here := state.dist.entry arc.tail
  if here ≠ horizon ∧ here + arc.cost < state.dist.entry arc.head then
    { dist := state.dist.put arc.head (here + arc.cost)
      via := state.via.put arc.head (some arc.tail)
      moved := some arc.head }
  else
    state

def round (state : Relaxation n) (arcs : List (Arc n)) : Relaxation n :=
  arcs.foldl improve { state with moved := none }

/-- At most `count` rounds, of which only the last may improve nothing. -/
def rounds (state : Relaxation n) (arcs : List (Arc n)) : (count : Nat) → Relaxation n
  | 0 => state
  | count + 1 =>
    let next := state.round arcs
    if next.moved = none then next else next.rounds arcs count

theorem dist_improve_le (state : Relaxation n) (arc : Arc n) (v : Fin n) :
    (state.improve arc).dist.entry v ≤ state.dist.entry v := by
  simp only [improve]
  split
  · rename_i cheaper
    rw [PerNode.entry_put]
    split
    · rename_i same
      subst same
      omega
    · exact Int.le_refl _
  · exact Int.le_refl _

theorem dist_round_le (arcs : List (Arc n)) (state : Relaxation n) (v : Fin n) :
    (state.round arcs).dist.entry v ≤ state.dist.entry v := by
  suffices run : ∀ state : Relaxation n, (arcs.foldl improve state).dist.entry v ≤ state.dist.entry v from
    run { state with moved := none }
  induction arcs with
  | nil => exact fun state => Int.le_refl _
  | cons arc rest ih => exact fun state => Int.le_trans (ih _) (dist_improve_le state arc v)

end Relaxation

end MinCostFlow
