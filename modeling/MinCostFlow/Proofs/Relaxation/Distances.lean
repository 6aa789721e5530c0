import MinCostFlow.Proofs.Relaxation.Detection
import MinCostFlow.Proofs.Relaxation.Seed
import MinCostFlow.Sample.Networks

/-! # What a seed holds

A walk over open arcs that visits no node twice uses no arc twice, so its cost lies within what
one unit on every open arc costs. While that is less than a horizon no distance is mistaken for a
node out of reach, and the prices of a seed are the least costs of the ways there.
-/

namespace MinCostFlow

open Network

variable {n : Nat} {net : Network n} {source : Fin n}

namespace Network

/-- What one unit on every open arc costs, signs left aside. -/
def openMagnitude (net : Network n) : Nat :=
  ((net.arcs.filter fun arc => arc.Open).map fun arc => arc.cost.natAbs).sum

theorem open_of_usableForward {face : Residual n} (usable : net.UsableForward face) :
    ∃ arc, net.arcs[face.arc]? = some arc ∧ arc.Open ∧ face = arc.along face.arc := by
  obtain ⟨arc, found, side⟩ := arc_of_mem usable.1.1
  rcases side with side | side
  · exact ⟨arc, found, (usableForward_along_iff found).mp (side ▸ usable), side⟩
  · have forward := usable.2
    rw [side] at forward
    simp [Arc.against] at forward

end Network

theorem Walk.natAbs_walkCost_le_openMagnitude {faces : List (Residual n)} {v : Fin n}
    (walk : Walk net.UsableForward source faces v) (simple : (visits source faces).Nodup) :
    (walkCost faces).natAbs ≤ net.openMagnitude := by
  rw [openMagnitude, sum_map_filter]
  refine (walk.mono fun _ usable => usable.1).natAbs_walkCost_le_of_weight simple fun face member => ?_
  obtain ⟨arc, found, isOpen, along⟩ := open_of_usableForward (walk.allowed_of_mem member)
  refine ⟨arc, found, ?_⟩
  rw [along]
  simp [isOpen, Arc.along]

namespace Potential

/-- One price for each node: the least cost of all walks to it over open arcs, which some walk
    without a repeated node has, and zero for a node out of reach. -/
structure LeastCosts (net : Network n) (source : Fin n) (prices : Potential) : Prop where
  size : prices.size = n
  attained : ∀ v, Reaches net.UsableForward source v → ∃ faces,
    Walk net.UsableForward source faces v ∧ (visits source faces).Nodup ∧
      walkCost faces = prices.price v
  least : ∀ v faces, Walk net.UsableForward source faces v → prices.price v ≤ walkCost faces
  missed : ∀ v, ¬ Reaches net.UsableForward source v → prices.price v = 0

/-- A seed holds the cheapest distances from its node, zero for that node itself, and it is fair to
    every open arc that leaves a node in reach, wherever the arc leads. -/
theorem seedAt_exact (net : Network n) (source : Fin n)
    (harmless : ∀ u, Reaches net.UsableForward source u → ¬ NegativeCycleAt net.UsableForward u)
    (small : (net.openMagnitude : Int) < horizon) :
    ∃ prices, seedAt net source.val = .ok prices ∧ prices.LeastCosts net source ∧
      prices.price source = 0 ∧
      ∀ face, net.UsableForward face → Reaches net.UsableForward source face.tail →
        0 ≤ face.reducedCost prices := by
  have seedable : Seedable net source net.openMagnitude :=
    { harmless, bounded := fun _ _ => Walk.natAbs_walkCost_le_openMagnitude, small }
  refine ⟨seed net source, ?_, ?_, seedable.price_source, fun _ => seedable.reducedCost_nonneg⟩
  · rw [seedAt, Position.slot_natCast]
    rfl
  refine ⟨size_seed net source, ?_, ?_, fun _ => Seedable.price_of_not_reaches⟩
  · intro v reached
    obtain ⟨⟨faces, walk, cost⟩, least⟩ := seedable.price_of_reaches reached
    obtain ⟨short, walk, simple, cheaper⟩ := walk.exists_simple
    exact ⟨short, walk, simple, le_antisymm (cost ▸ cheaper harmless) (least short walk)⟩
  · exact fun v faces walk => (seedable.price_of_reaches ⟨faces, walk⟩).2 faces walk

theorem seedAt_exact_lateBargain :
    (∀ u, Reaches lateBargain.UsableForward 2 u → ¬ NegativeCycleAt lateBargain.UsableForward u) ∧
      (lateBargain.openMagnitude : Int) < horizon ∧
      ∃ prices, seedAt lateBargain 2 = .ok prices ∧ prices.LeastCosts lateBargain 2 ∧
        prices.price (2 : Fin 4) = 0 ∧
        ∀ face, lateBargain.UsableForward face → Reaches lateBargain.UsableForward 2 face.tail →
          0 ≤ face.reducedCost prices := by
  have acyclic : ¬ lateBargain.HasNegativeCycle := not_hasNegativeCycle (by decide)
  have harmless : ∀ u, Reaches lateBargain.UsableForward 2 u →
      ¬ NegativeCycleAt lateBargain.UsableForward u := fun u _ negative => acyclic ⟨u, negative⟩
  have small : (lateBargain.openMagnitude : Int) < horizon := by decide
  exact ⟨harmless, small, seedAt_exact lateBargain 2 harmless small⟩

/-- Node 0 is out of reach: its price is zero, and what leaves it counts for nothing. -/
example : seedAt lateBargain 2 = .ok #[0, -4, 0, -3] := by decide +kernel

end Potential

end MinCostFlow
