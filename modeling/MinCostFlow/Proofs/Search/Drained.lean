import MinCostFlow.Proofs.Search.Certificate
import MinCostFlow.Proofs.Walk.Cost

/-! # Searches to the end

When no node waits any more, no walk from the source undercuts a distance. So if everything in
reach has been reached, the distances make fair prices, and there can be no closed walk of
negative cost. A search to the end over such a walk therefore fails, and it fails by finding
that a way has grown too long.
-/

namespace MinCostFlow

variable {n : Nat}

namespace Frontier

variable {net : Network n} {potential : Potential} {goal : Option Int} {source : Fin n}
  {frontier : Frontier n}

/-- No node is farther than any walk to it is long, provided that what the walk comes to on its
    way stays below what waits. -/
theorem Tidy.dist_le_of_walk_below (tidy : Tidy net potential goal source (fun _ => False) frontier)
    {bound : Int} (inside : bound ≤ horizon)
    (later : ∀ v, frontier.Waits v → bound ≤ frontier.dist v)
    {faces : List (Residual n)} {v : Fin n} (walk : Walk net.Usable source faces v)
    (near : ∀ front rest, faces = front ++ rest → reducedWalkCost potential front < bound) :
    frontier.dist v ≤ reducedWalkCost potential faces := by
  induction faces using List.reverseRecOn generalizing v with
  | nil =>
      obtain rfl := Walk.nil_iff.mp walk
      exact tidy.origin
  | append_singleton front face ih =>
      obtain ⟨first, usable, rfl⟩ := walk.of_snoc
      have known := ih first fun start rest split =>
        near start (rest ++ [face]) (by rw [split, List.append_assoc])
      have below := near front [face] rfl
      cases tidy.looked face.tail id (by omega) with
      | inl waits =>
          have farther := later face.tail waits
          omega
      | inr done =>
          have step := done face usable rfl
          rw [reducedWalkCost_snoc]
          omega

theorem Tidy.dist_le_of_walk (tidy : Tidy net potential goal source (fun _ => False) frontier)
    (still : ∀ v, ¬ frontier.Waits v) {faces : List (Residual n)} {v : Fin n}
    (walk : Walk net.Usable source faces v)
    (near : ∀ front rest, faces = front ++ rest → reducedWalkCost potential front < horizon) :
    frontier.dist v ≤ reducedWalkCost potential faces :=
  tidy.dist_le_of_walk_below (Int.le_refl _) (fun v waits => absurd waits (still v)) walk near

/-- Walks from the source that visit no node twice come to less than the horizon. -/
def Confined (net : Network n) (potential : Potential) (source : Fin n) : Prop :=
  ∀ faces v, Walk net.Usable source faces v → (visits source faces).Nodup →
    reducedWalkCost potential faces < horizon

theorem Tidy.dist_le_of_simple (tidy : Tidy net potential goal source (fun _ => False) frontier)
    (still : ∀ v, ¬ frontier.Waits v) (confined : Confined net potential source)
    {faces : List (Residual n)} {v : Fin n} (walk : Walk net.Usable source faces v)
    (simple : (visits source faces).Nodup) : frontier.dist v ≤ reducedWalkCost potential faces := by
  refine tidy.dist_le_of_walk still walk fun front rest split => ?_
  subst split
  obtain ⟨x, first, _⟩ := walk.split
  exact confined front x first (nodup_visits_left simple)

theorem Tidy.labelled_of_reaches (tidy : Tidy net potential goal source (fun _ => False) frontier)
    (still : ∀ v, ¬ frontier.Waits v) (confined : Confined net potential source) {v : Fin n}
    (reached : Network.Reaches net.Usable source v) : frontier.dist v < horizon := by
  obtain ⟨_, walk⟩ := reached
  obtain ⟨short, walk, simple, _⟩ := walk.exists_simple
  have known := tidy.dist_le_of_simple still confined walk simple
  exact Int.lt_of_le_of_lt known (confined short v walk simple)

theorem Tidy.harmless_of_labelled (tidy : Tidy net potential goal source (fun _ => False) frontier)
    (still : ∀ v, ¬ frontier.Waits v)
    (labelled : ∀ v, Network.Reaches net.Usable source v → frontier.dist v < horizon) :
    Harmless net source := by
  intro u reached
  apply Network.not_negativeCycleAt (Array.ofFn fun v => potential.price v + frontier.dist v)
  intro face usable onward
  rw [Residual.reducedCost, Network.price_ofFn, Network.price_ofFn]
  cases tidy.looked face.tail id (labelled face.tail (reached.trans onward)) with
  | inl waits => exact absurd waits (still face.tail)
  | inr done =>
      have step := done face usable rfl
      rw [Residual.reducedCost] at step
      omega

theorem eq_endlessPath_of_settle {entry : Entry n} {fault : Fault} (size : potential.size = n)
    (named : entry.name = entry.node.val)
    (failed : settle net potential entry frontier = .error fault) : fault = .state .endlessPath := by
  have scan := settle_scan net frontier (motive := fun _ => True) size named
    (fun _ _ _ _ _ _ _ => trivial) trivial
  rw [failed] at scan
  cases scan with
  | long => rfl

end Frontier

namespace Network

open Frontier

variable {net : Network n} {potential : Potential} {source : Fin n}

/-- If simple walks from the source stay within the horizon and some closed walk in reach costs
    less than nothing, a search to the end fails. -/
theorem drain_fails (size : potential.size = n) (confined : Confined net potential source)
    (harmful : ¬ Harmless net source) :
    drain net potential none (net.searchBudget potential) (start source source.val) =
      .error (.state .endlessPath) := by
  have ending := drain_tidy net none source (motive := fun _ => True)
    size trivial (fun _ _ _ _ _ _ _ => trivial) fun _ _ _ _ _ _ _ _ _ => trivial
  generalize drain net potential none (net.searchBudget potential) (start source source.val) = ended
    at ending
  cases ending with
  | drained holds empty =>
      have still := not_waits_of_empty empty
      exact absurd (holds.1.harmless_of_labelled still fun v =>
        holds.1.labelled_of_reaches still confined) harmful
  | stopped _ _ _ aim => simp at aim
  | failed holds queue _ failed =>
      rw [eq_endlessPath_of_settle size (holds.1.named _ (by rw [queue]; exact List.mem_cons_self)) failed]

end Network

end MinCostFlow
