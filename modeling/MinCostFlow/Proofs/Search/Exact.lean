import Mathlib.Order.Bounds.Basic
import MinCostFlow.Proofs.Search.Drained
import MinCostFlow.Proofs.Search.Route
import MinCostFlow.Sample.Networks

/-! # What a search to the end has found

A search that empties its queue may meet reduced costs below zero: a node that improves is
looked at again. It fails exactly when a closed walk of negative cost is in reach. Otherwise no
walk from the source, with or without repeated nodes, is cheaper than the labels say, and each
label stands for a walk. The horizon does not come into it as long as no `n - 1` faces together
get there.
-/

namespace MinCostFlow

variable {n : Nat}

def Network.walks (net : Network n) (source v : Fin n) : Set (List (Residual n)) :=
  {faces | Walk net.Usable source faces v}

/-- A label that holds the least reduced cost and the least cost of all walks to a node. -/
structure Label.Exact (net : Network n) (potential : Potential) (source v : Fin n) (label : Label) :
    Prop where
  dist : IsLeast (reducedWalkCost potential '' net.walks source v) label.dist
  pathCost_eq : label.pathCost = label.dist - potential.price source + potential.price v
  pathCost : IsLeast (walkCost '' net.walks source v) label.pathCost

theorem reducedWalkCost_lt_of_length_lt {potential : Potential} {faces : List (Residual n)}
    (bounded : ∀ face ∈ faces, ((n - 1 : Nat) : Int) * |face.reducedCost potential| < horizon)
    (short : faces.length < n) : reducedWalkCost potential faces < horizon := by
  have scaled : ((n - 1 : Nat) : Int) * reducedWalkCost potential faces ≤
      (faces.length : Int) * (horizon - 1) := by
    clear short
    induction faces with
    | nil => simp [reducedWalkCost]
    | cons face rest ih =>
        have first := bounded face List.mem_cons_self
        have others := ih fun other member => bounded other (List.mem_cons_of_mem _ member)
        have share : ((n - 1 : Nat) : Int) * face.reducedCost potential ≤
            ((n - 1 : Nat) : Int) * |face.reducedCost potential| :=
          mul_le_mul_of_nonneg_left (le_abs_self _) (Int.natCast_nonneg _)
        simp only [reducedWalkCost, List.map_cons, List.sum_cons, List.length_cons] at others ⊢
        push_cast
        rw [mul_add, add_mul]
        omega
  have far : (0 : Int) < horizon := by decide
  cases faces with
  | nil => exact far
  | cons face rest =>
      have several : (0 : Int) < ((n - 1 : Nat) : Int) := by
        simp only [List.length_cons] at short
        omega
      have fits : ((face :: rest).length : Int) * (horizon - 1) ≤ ((n - 1 : Nat) : Int) * (horizon - 1) :=
        mul_le_mul_of_nonneg_right (by omega) (by omega)
      have bound := le_of_mul_le_mul_left (scaled.trans fits) several
      omega

namespace Frontier

variable {net : Network n} {potential : Potential} {goal : Option Int} {source : Fin n}
  {frontier : Frontier n} {way : Fin n → List (Residual n)}

theorem confined_of_bounded
    (bounded : ∀ face, net.Usable face → ((n - 1 : Nat) : Int) * |face.reducedCost potential| < horizon) :
    Confined net potential source := by
  intro faces v walk simple
  exact reducedWalkCost_lt_of_length_lt (fun face member => bounded face (walk.allowed_of_mem member))
    (length_lt_of_nodup simple)

namespace Finished

theorem labelled_iff (finished : Finished net potential goal source way false frontier)
    (confined : Confined net potential source) (v : Fin n) :
    frontier.dist v < horizon ↔ Network.Reaches net.Usable source v := by
  constructor
  · intro labelled
    exact ⟨way v, finished.traced.walk v labelled⟩
  · exact finished.tidy.labelled_of_reaches (finished.drained rfl) confined

theorem dist_le_reducedWalkCost (finished : Finished net potential goal source way false frontier)
    (confined : Confined net potential source) (harmless : Harmless net source) {v : Fin n}
    {faces : List (Residual n)} (walk : Walk net.Usable source faces v) :
    frontier.dist v ≤ reducedWalkCost potential faces := by
  obtain ⟨short, direct, simple, cheaper⟩ := walk.exists_simple
  have known := finished.tidy.dist_le_of_simple (finished.drained rfl) confined direct simple
  have shorter := cheaper harmless
  rw [direct.reducedWalkCost_eq] at known
  rw [walk.reducedWalkCost_eq]
  omega

theorem exact (finished : Finished net potential goal source way false frontier)
    (confined : Confined net potential source) (harmless : Harmless net source) {v : Fin n}
    (labelled : frontier.dist v < horizon) :
    (frontier.labels.entry v).Exact net potential source v := by
  have walk := finished.traced.walk v labelled
  have describes := finished.traced.describes v labelled
  have costs := walk.reducedWalkCost_eq potential
  rw [← describes.dist, ← describes.pathCost] at costs
  refine ⟨⟨⟨way v, walk, describes.dist.symm⟩, ?_⟩, by omega,
    ⟨⟨way v, walk, describes.pathCost.symm⟩, ?_⟩⟩
  · rintro cost ⟨faces, other, rfl⟩
    exact finished.dist_le_reducedWalkCost confined harmless other
  · rintro cost ⟨faces, other, rfl⟩
    have bound := finished.dist_le_reducedWalkCost confined harmless other
    rw [Walk.reducedWalkCost_eq potential other, dist] at bound
    omega

end Finished

end Frontier

namespace Network

open Frontier

variable {net : Network n} {potential : Potential} {source : Fin n}

/-- As long as the reduced cost of any usable face stays below the horizon when it is taken `n - 1`
    times, a search to the end fails exactly when a closed walk of negative cost is in reach.
    Otherwise the label of each node in reach holds the least reduced cost and the least cost of
    all walks to it, and the other nodes have no distance. -/
theorem search_to_end_exact (net : Network n) (potential : Potential) (size : potential.size = n)
    (source sink : Fin n)
    (bounded : ∀ face, net.Usable face → ((n - 1 : Nat) : Int) * |face.reducedCost potential| < horizon) :
    (net.search source.val sink.val potential false = .error (.state .endlessPath) ↔
      ∃ u, Reaches net.Usable source u ∧ NegativeCycleAt net.Usable u) ∧
    ((¬ ∃ u, Reaches net.Usable source u ∧ NegativeCycleAt net.Usable u) →
      ∃ reach, net.search source.val sink.val potential false = .ok reach ∧ ∀ v,
        (Reaches net.Usable source v → (reach.labels.entry v).Exact net potential source v) ∧
        ((reach.labels.entry v).dist = horizon ↔ ¬ Reaches net.Usable source v)) := by
  have confined : Confined net potential source := confined_of_bounded bounded
  rw [← not_harmless_iff, not_not]
  by_cases harmless : Harmless net source
  · obtain ⟨last, stopped, way, searched, finished⟩ := search_finished size harmless sink false
    cases stopped with
    | true =>
        obtain ⟨_, aim, _⟩ := finished.stops rfl
        simp at aim
    | false =>
        refine ⟨by simp [searched, harmless], fun _ => ⟨_, searched, fun v => ⟨fun reached => ?_, ?_⟩⟩⟩
        · exact finished.exact confined harmless ((finished.labelled_iff confined v).mpr reached)
        · rw [← finished.labelled_iff confined v, ← finished.dist_ne_horizon_iff, not_not]
          rfl
  · have failed : net.search source.val sink.val potential false = .error (.state .endlessPath) := by
      rw [search_eq, if_neg Bool.false_ne_true, drain_fails size confined harmless]
      rfl
    exact ⟨by simp [failed, harmless], fun none_found => absurd none_found harmless⟩

theorem search_to_end_exact_lateBargain :
    ∃ reach, lateBargain.search 0 3 #[0, 0, 0, 0] false = .ok reach ∧
      (reach.labels.entry 3).dist = 0 ∧
      (reach.labels.entry 3).Exact lateBargain #[0, 0, 0, 0] 0 3 := by
  have bounded : ∀ face ∈ lateBargain.residuals, 0 < face.room →
      ((4 - 1 : Nat) : Int) * |face.reducedCost #[0, 0, 0, 0]| < horizon := by
    decide
  obtain ⟨fails_iff, answers⟩ := search_to_end_exact lateBargain #[0, 0, 0, 0] rfl 0 3
    fun face usable => bounded face usable.1 usable.2
  have ran : (lateBargain.search 0 3 #[0, 0, 0, 0] false).map
      (fun reach => (reach.labels.entry 3).dist) = .ok 0 := by
    decide +kernel
  obtain ⟨reach, found, labels⟩ := answers fun cyclic => by
    have failed : lateBargain.search 0 3 #[0, 0, 0, 0] false = .error (.state .endlessPath) :=
      fails_iff.mpr cyclic
    rw [failed] at ran
    cases ran
  have near : (reach.labels.entry 3).dist = 0 := (eq_of_map_ok found ran :)
  refine ⟨reach, found, near, (labels 3).1 ?_⟩
  by_contra cut
  have far := (labels 3).2.mpr cut
  rw [near] at far
  exact absurd far (by decide)

end Network

end MinCostFlow
