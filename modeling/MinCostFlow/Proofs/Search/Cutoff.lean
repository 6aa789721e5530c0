import Mathlib.Data.Int.ConditionallyCompleteOrder
import Mathlib.Order.ConditionallyCompleteLattice.Basic
import MinCostFlow.Proofs.Search.Exact
import MinCostFlow.Proofs.Search.Prices
import MinCostFlow.Sample.Networks

/-! # Where a search cuts distances off

Over reduced costs of at least zero, distances only grow along a walk. So a search knows every
distance that lies below a bound as soon as all that waits has come up to the bound: the bound is
the horizon when the queue is empty, and the distance of the sink when the sink is first in the
queue. What lies beyond the bound may be wrong, but it is not below the bound. The horizon is no
more than such a bound itself, so costs may be as large as they like.
-/

namespace MinCostFlow

open Network

variable {n : Nat}

/-- What the cheapest walk to each node costs under node prices, and `⊤` where no walk leads. -/
def Network.Distances (net : Network n) (potential : Potential) (source : Fin n)
    (least : Fin n → WithTop Int) : Prop :=
  ∀ v, IsLeast (insert ⊤ ((fun faces => (reducedWalkCost potential faces : WithTop Int)) ''
    net.walks source v)) (least v)

namespace Network.Distances

variable {net : Network n} {potential : Potential} {source v : Fin n} {least : Fin n → WithTop Int}

theorem le_of_walk (distances : net.Distances potential source least) {faces : List (Residual n)}
    (walk : Walk net.Usable source faces v) : least v ≤ reducedWalkCost potential faces :=
  (distances v).2 (.inr ⟨faces, walk, rfl⟩)

theorem exists_walk (distances : net.Distances potential source least) (near : least v < ⊤) :
    ∃ faces, Walk net.Usable source faces v ∧ least v = reducedWalkCost potential faces := by
  rcases (distances v).1 with nowhere | ⟨faces, walk, same⟩
  · exact absurd nowhere near.ne
  · exact ⟨faces, walk, same.symm⟩

end Network.Distances

namespace Potential.Fair

variable {net : Network n} {potential : Potential} {source v : Fin n}

theorem reducedWalkCost_rest_nonneg (fair : potential.Fair net (Reaches net.Usable source))
    {front rest : List (Residual n)} (walk : Walk net.Usable source (front ++ rest) v) :
    0 ≤ reducedWalkCost potential rest := by
  obtain ⟨x, first, last⟩ := walk.split
  apply last.reducedWalkCost_nonneg
  intro face member
  apply fair face (last.allowed_of_mem member)
  have inside := last.tail_mem_visits member
  obtain ⟨start, _, _, onward⟩ := last.mem_visits_iff.mp inside
  exact ⟨front ++ start, first.append onward⟩

theorem exists_distances (fair : potential.Fair net (Reaches net.Usable source)) :
    ∃ least, net.Distances potential source least := by
  have each : ∀ v, ∃ cost : WithTop Int, IsLeast (insert ⊤
      ((fun faces => (reducedWalkCost potential faces : WithTop Int)) '' net.walks source v)) cost := by
    intro v
    by_cases reached : Reaches net.Usable source v
    · obtain ⟨faces, walk⟩ := reached
      obtain ⟨cost, ⟨best, shortest, same⟩, lower⟩ := Int.exists_least_of_bdd
        (P := fun cost => ∃ faces, Walk net.Usable source faces v ∧ reducedWalkCost potential faces = cost)
        ⟨0, by
          rintro cost ⟨faces, walk, rfl⟩
          exact fair.reducedWalkCost_rest_nonneg (show Walk net.Usable source ([] ++ faces) v from walk)⟩
        ⟨_, faces, walk, rfl⟩
      refine ⟨cost, .inr ⟨best, shortest, by simp [same]⟩, ?_⟩
      rintro other (rfl | ⟨faces, walk, rfl⟩)
      · exact le_top
      · exact WithTop.coe_le_coe.mpr (lower _ ⟨faces, walk, rfl⟩)
    · refine ⟨⊤, .inl rfl, ?_⟩
      rintro other (rfl | ⟨faces, walk, rfl⟩)
      · exact le_top
      · exact absurd ⟨faces, walk⟩ reached
  choose least distances using each
  exact ⟨least, distances⟩

end Potential.Fair

namespace Frontier.Finished

variable {net : Network n} {potential : Potential} {goal : Option Int} {source sink : Fin n}
  {frontier : Frontier n} {way : Fin n → List (Residual n)} {stopped : Bool}
  {least : Fin n → WithTop Int}

theorem least_le (finished : Finished net potential goal source way stopped frontier)
    (distances : net.Distances potential source least) {v : Fin n}
    (labelled : frontier.dist v < horizon) : least v ≤ frontier.dist v := by
  rw [finished.traced.dist_eq labelled]
  exact distances.le_of_walk (finished.traced.walk v labelled)

theorem le_least (finished : Finished net potential goal source way stopped frontier)
    (fair : potential.Fair net (Reaches net.Usable source))
    (distances : net.Distances potential source least) {bound : Int} (inside : bound ≤ horizon)
    (later : ∀ v, frontier.Waits v → bound ≤ frontier.dist v) {v : Fin n} (near : least v < bound) :
    (frontier.dist v : WithTop Int) ≤ least v := by
  obtain ⟨faces, walk, same⟩ := distances.exists_walk (near.trans (WithTop.coe_lt_top bound))
  rw [same] at near ⊢
  apply WithTop.coe_le_coe.mpr
  refine finished.tidy.dist_le_of_walk_below inside later walk fun front rest split => ?_
  subst split
  have remains := fair.reducedWalkCost_rest_nonneg walk
  have whole := WithTop.coe_lt_coe.mp near
  rw [reducedWalkCost_append] at whole
  omega

/-- Up to a bound below which nothing waits, distances are right. -/
theorem min_dist_eq (finished : Finished net potential goal source way stopped frontier)
    (fair : potential.Fair net (Reaches net.Usable source))
    (distances : net.Distances potential source least) {bound : Int} (inside : bound ≤ horizon)
    (later : ∀ v, frontier.Waits v → bound ≤ frontier.dist v) (v : Fin n) :
    min (frontier.dist v : WithTop Int) bound = min (least v) bound := by
  apply le_antisymm
  · apply le_min _ (min_le_right _ _)
    by_cases near : least v < bound
    · exact (min_le_left _ _).trans (finished.le_least fair distances inside later near)
    · exact (min_le_right _ _).trans (not_lt.mp near)
  · apply le_min _ (min_le_right _ _)
    by_cases labelled : frontier.dist v < horizon
    · exact (min_le_left _ _).trans (finished.least_le distances labelled)
    · exact (min_le_right _ _).trans (WithTop.coe_le_coe.mpr (by omega))

theorem dist_eq_min (finished : Finished net potential goal source way false frontier)
    (fair : potential.Fair net (Reaches net.Usable source))
    (distances : net.Distances potential source least) (v : Fin n) :
    (frontier.dist v : WithTop Int) = min (least v) horizon := by
  have ceiling : (frontier.dist v : WithTop Int) ≤ horizon :=
    WithTop.coe_le_coe.mpr (finished.tidy.ceiling v)
  rw [← finished.min_dist_eq fair distances (Int.le_refl _)
    (fun u waits => absurd waits (finished.drained rfl u)) v, min_eq_left ceiling]

theorem dist_sink_eq (finished : Finished net potential (some (sink.val : Int)) source way true frontier)
    (fair : potential.Fair net (Reaches net.Usable source))
    (distances : net.Distances potential source least) :
    (frontier.dist sink : WithTop Int) = least sink ∧
      ∀ v, min (frontier.dist v : WithTop Int) (least sink) = min (least v) (least sink) := by
  have labelled := finished.stopped_iff.mpr rfl
  have known := finished.min_dist_eq fair distances (Int.le_of_lt labelled)
    fun v waits => (finished.first_of_waits true waits).2
  have exact_sink : (frontier.dist sink : WithTop Int) = least sink := by
    have own := known sink
    rw [min_self, min_eq_left (finished.least_le distances labelled)] at own
    exact own
  exact ⟨exact_sink, exact_sink ▸ known⟩

end Frontier.Finished

namespace Network

open Frontier

/-- Over reduced costs of at least zero, however large, a search does not fail. If it goes to its
    end, the distances are right up to the horizon. If it may stop at the sink, it reaches the sink
    exactly when its distance lies below the horizon, and the distances are right up to the one
    of the sink; and if it does not reach the sink they are right up to the horizon again. -/
theorem early_stop_keeps_distances (net : Network n) (potential : Potential)
    (size : potential.size = n) (source sink : Fin n)
    (fair : potential.Fair net (Reaches net.Usable source)) :
    ∃ least, net.Distances potential source least ∧
      (∃ full, net.search source.val sink.val potential false = .ok full ∧
        ∀ v, ((full.labels.entry v).dist : WithTop Int) = min (least v) horizon) ∧
      ∃ reach, net.search source.val sink.val potential true = .ok reach ∧
        (reach.reachedSink = true ↔ least sink < horizon) ∧
        (least sink < horizon → ((reach.labels.entry sink).dist : WithTop Int) = least sink ∧
          ∀ v, min ((reach.labels.entry v).dist : WithTop Int) (least sink) =
            min (least v) (least sink)) ∧
        (horizon ≤ least sink →
          ∀ v, ((reach.labels.entry v).dist : WithTop Int) = min (least v) horizon) := by
  obtain ⟨least, distances⟩ := fair.exists_distances
  refine ⟨least, distances, ?_, ?_⟩
  · obtain ⟨last, stopped, way, searched, finished⟩ := search_finished size fair.harmless sink false
    obtain rfl : stopped = false := finished.stopped_eq
    exact ⟨_, searched, finished.dist_eq_min fair distances⟩
  · obtain ⟨last, stopped, way, searched, finished⟩ := search_finished size fair.harmless sink true
    refine ⟨_, searched, ?_⟩
    have reached_iff : (reachOf sink stopped last).reachedSink = true ↔ last.dist sink < horizon :=
      decide_eq_true_iff.trans (finished.dist_ne_horizon_iff sink)
    rw [reached_iff, finished.stopped_iff]
    cases stopped with
    | true =>
        obtain ⟨exact_sink, known⟩ := finished.dist_sink_eq fair distances
        have near : least sink < horizon := by
          rw [← exact_sink]
          exact WithTop.coe_lt_coe.mpr (finished.stopped_iff.mpr rfl)
        exact ⟨by simp [near], fun _ => ⟨exact_sink, known⟩, fun far => absurd near (not_lt.mpr far)⟩
    | false =>
        have known := finished.dist_eq_min fair distances
        have far : ¬ least sink < horizon := by
          intro near
          have same := known sink
          rw [min_eq_left near.le] at same
          rw [← same] at near
          have labelled := finished.stopped_iff.mp (WithTop.coe_lt_coe.mp near)
          cases labelled
        exact ⟨by simp [far], fun near => absurd near far, fun _ => known⟩

theorem early_stop_keeps_distances_farCorner :
    ∃ least, farCorner.Distances #[0, 0, 0, 0] 0 least ∧
      ∃ reach, farCorner.search 0 3 #[0, 0, 0, 0] true = .ok reach ∧ least 3 = (5 : Int) ∧
        ∀ v, min ((reach.labels.entry v).dist : WithTop Int) (least 3) = min (least v) (least 3) := by
  have nonneg : ∀ face ∈ farCorner.residuals, 0 < face.room →
      0 ≤ face.reducedCost #[0, 0, 0, 0] := by
    decide
  obtain ⟨least, distances, _, reach, found, reached_iff, stops, _⟩ :=
    early_stop_keeps_distances farCorner #[0, 0, 0, 0] rfl 0 3
      fun face usable _ => nonneg face usable.1 usable.2
  have ran : (farCorner.search 0 3 #[0, 0, 0, 0] true).map
      (fun reach => (reach.reachedSink, (reach.labels.entry 3).dist)) = .ok (true, 5) := by
    decide +kernel
  have seen := eq_of_map_ok found ran
  obtain ⟨reached, dist⟩ := Prod.mk.inj seen
  obtain ⟨same, known⟩ := stops (reached_iff.mp reached)
  exact ⟨least, distances, reach, found, by rw [← same, dist], known⟩

end Network

end MinCostFlow
