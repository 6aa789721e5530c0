import Mathlib.Algebra.Order.Ring.Int
import MinCostFlow.Proofs.Relaxation.Rounds

/-! # Cheapest distances as prices

If no closed walk in reach of the source costs less than nothing, `n - 1` rounds are enough
for the distances to be exact: walks that visit no node twice have at most so many arcs. As
prices they are fair to every open arc that leaves a node in reach.
-/

namespace MinCostFlow

open Relaxation Network

variable {n : Nat} {net : Network n} {source : Fin n}

namespace Relaxation

theorem dist_origin (source v : Fin n) :
    (origin source).dist.entry v = if source = v then 0 else horizon := by
  simp [origin, PerNode.entry_put]

theorem eq_of_dist_origin {v : Fin n} (zero : (origin source).dist.entry v = 0) : v = source := by
  rw [dist_origin] at zero
  by_contra other
  rw [if_neg (Ne.symm other)] at zero
  exact absurd zero (by decide)

theorem plain_origin (source : Fin n) : Plain (origin source) := by
  intro v
  rw [dist_origin]
  by_cases here : source = v
  · exact .inl (if_pos here)
  · exact .inr (if_neg here)

end Relaxation

namespace Potential

/-- No closed walk over open arcs in reach of the source costs less than nothing, and no walk
    over them that visits no node twice costs more than `bound`, signs left aside. -/
structure Seedable (net : Network n) (source : Fin n) (bound : Nat) : Prop where
  harmless : ∀ u, Reaches net.UsableForward source u → ¬ NegativeCycleAt net.UsableForward u
  bounded : ∀ faces v, Walk net.UsableForward source faces v → (visits source faces).Nodup →
    (walkCost faces).natAbs ≤ bound
  small : (bound : Int) < horizon

variable {bound : Nat}

def seedDist (net : Network n) (source : Fin n) : PerNode Int n :=
  ((origin source).rounds net.openArcs (n - 1)).dist

theorem price_seed (net : Network n) (source v : Fin n) :
    (seed net source).price v = ofDistance ((seedDist net source).entry v) := by
  have bound : v.val < (seedDist net source).toArray.size := by simp
  change (((seedDist net source).toArray.map ofDistance)[v.val]?).getD 0 = _
  rw [Array.getElem?_map, Array.getElem?_eq_getElem bound, PerNode.getElem_toArray]
  rfl

theorem settled_seed (net : Network n) (source : Fin n) :
    Settled net (origin source) (n - 1) ((origin source).rounds net.openArcs (n - 1)) :=
  settled_rounds (plain_origin source) rfl (n - 1)

theorem seedDist_attained {v : Fin n} (near : (seedDist net source).entry v < horizon) :
    ∃ faces, Walk net.UsableForward source faces v ∧ walkCost faces = (seedDist net source).entry v := by
  obtain ⟨u, faces, zero, walk, sum⟩ := (settled_seed net source).grounded.attained v near
  obtain rfl := eq_of_dist_origin zero
  exact ⟨faces, walk, sum⟩

namespace Seedable

theorem seedDist_le (seedable : Seedable net source bound) {faces : List (Residual n)} {v : Fin n}
    (walk : Walk net.UsableForward source faces v) : (seedDist net source).entry v ≤ walkCost faces := by
  obtain ⟨short, walk, simple, cheaper⟩ := walk.exists_simple
  have near : Near net (origin source) source short v := by
    refine ⟨by rw [dist_origin, if_pos rfl], walk, ?_⟩
    rintro front rest x rfl first
    have bounded := seedable.bounded front x first (nodup_visits_left simple)
    have small := seedable.small
    exact .inr (by omega)
  have few := length_lt_of_nodup simple
  have covered := (settled_seed net source).covers source short v near (by omega)
  exact covered.trans (cheaper seedable.harmless)

theorem seedDist_lt (seedable : Seedable net source bound) {v : Fin n}
    (reached : Reaches net.UsableForward source v) : (seedDist net source).entry v < horizon := by
  obtain ⟨_, walk⟩ := reached
  obtain ⟨short, walk, simple, _⟩ := walk.exists_simple
  have known := seedable.seedDist_le walk
  have bounded := seedable.bounded short v walk simple
  have small := seedable.small
  omega

/-- The price of a node in reach is the least cost of a walk to it. -/
theorem price_of_reaches (seedable : Seedable net source bound) {v : Fin n}
    (reached : Reaches net.UsableForward source v) :
    (∃ faces, Walk net.UsableForward source faces v ∧ walkCost faces = (seed net source).price v) ∧
      ∀ faces, Walk net.UsableForward source faces v → (seed net source).price v ≤ walkCost faces := by
  have near := seedable.seedDist_lt reached
  rw [price_seed, ofDistance, if_neg (Int.ne_of_lt near)]
  exact ⟨seedDist_attained near, fun faces walk => seedable.seedDist_le walk⟩

theorem price_of_not_reaches {v : Fin n} (missed : ¬ Reaches net.UsableForward source v) :
    (seed net source).price v = 0 := by
  rw [price_seed, ofDistance]
  split
  · rfl
  · rename_i near
    have bound := (plain_origin source).dist_le (settled_seed net source).grounded v
    obtain ⟨faces, walk, _⟩ := seedDist_attained (lt_of_le_of_ne bound near)
    exact absurd ⟨faces, walk⟩ missed

theorem price_source (seedable : Seedable net source bound) : (seed net source).price source = 0 := by
  obtain ⟨⟨faces, walk, cost⟩, least⟩ := seedable.price_of_reaches (reaches_self _ source)
  have upper : (seed net source).price source ≤ 0 := least [] (.nil source)
  have lower : ¬ walkCost faces < 0 := fun negative =>
    seedable.harmless source (reaches_self _ _) ⟨faces, walk, negative⟩
  omega

/-- Seeded prices are fair to every open arc that leaves a node in reach. -/
theorem reducedCost_nonneg (seedable : Seedable net source bound) {face : Residual n}
    (usable : net.UsableForward face) (reached : Reaches net.UsableForward source face.tail) :
    0 ≤ face.reducedCost (seed net source) := by
  obtain ⟨⟨faces, walk, cost⟩, _⟩ := seedable.price_of_reaches reached
  have onward := walk.snoc rfl usable
  have least := (seedable.price_of_reaches ⟨_, onward⟩).2 _ onward
  rw [walkCost_append, cost] at least
  simp only [walkCost, List.map_cons, List.map_nil, List.sum_cons, List.sum_nil] at least
  rw [Residual.reducedCost]
  omega

theorem natAbs_price_le (seedable : Seedable net source bound) (v : Fin n) :
    ((seed net source).price v).natAbs ≤ bound := by
  by_cases reached : Reaches net.UsableForward source v
  · obtain ⟨⟨faces, walk, cost⟩, least⟩ := seedable.price_of_reaches reached
    obtain ⟨short, walk, simple, cheaper⟩ := walk.exists_simple
    have lower := least short walk
    have upper := cheaper seedable.harmless
    have bounded := seedable.bounded short v walk simple
    omega
  · rw [price_of_not_reaches reached]
    exact Nat.zero_le bound

end Seedable

end Potential

end MinCostFlow
