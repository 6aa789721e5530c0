import Mathlib.Algebra.BigOperators.Fin
import Mathlib.Algebra.Order.BigOperators.Group.Finset
import Mathlib.Algebra.Order.Ring.Int
import MinCostFlow.Proofs.Search.Step

/-! # Searches come to an end

Whatever the costs and the prices are, a label stands for a way of fewer than `n` arcs, so
its distance cannot fall below a floor. Each new label lowers a distance and adds one entry
to the queue, and each step takes an entry out. So twice the height of all distances above
the floor and the length of the queue together get smaller with every step.

Along the way the frontier stays in order. In particular a node that does not wait has
nothing left to offer to the heads of its usable faces, which is all that the distances of
a finished search owe to the search.
-/

namespace MinCostFlow

variable {n : Nat}

/-- No reduced cost is larger than this, signs left aside. -/
def Network.reducedMagnitude (net : Network n) (potential : Potential) : Nat :=
  (net.arcs.map fun arc => arc.cost.natAbs).sum + 2 * (potential.toList.map Int.natAbs).sum

theorem Potential.natAbs_price_le (potential : Potential) (v : Fin n) :
    (potential.price v).natAbs ≤ (potential.toList.map Int.natAbs).sum := by
  unfold price
  cases found : potential[v.val]? with
  | none => simp
  | some price =>
      refine List.le_sum_of_mem (List.mem_map_of_mem ?_)
      exact Array.mem_toList_iff.mpr (Array.mem_of_getElem? found)

theorem Network.natAbs_cost_le {net : Network n} {face : Residual n} (member : face ∈ net.residuals) :
    face.cost.natAbs ≤ (net.arcs.map fun arc => arc.cost.natAbs).sum := by
  obtain ⟨position, arc, found, rfl | rfl⟩ := mem_residuals.mp member
  · exact List.le_sum_of_mem (List.mem_map_of_mem (List.mem_of_getElem? found))
  · rw [show (arc.against position).cost.natAbs = arc.cost.natAbs from Int.natAbs_neg _]
    exact List.le_sum_of_mem (List.mem_map_of_mem (f := fun arc : Arc n => arc.cost.natAbs)
      (List.mem_of_getElem? found))

theorem Network.searchBudget_eq (net : Network n) (potential : Potential) :
    net.searchBudget potential =
      2 * n * (horizon.toNat + n * net.reducedMagnitude potential) + 1 := by
  rw [searchBudget, reducedMagnitude, List.sum_eq_foldl, List.sum_eq_foldl, List.foldl_map,
    List.foldl_map]

theorem Network.neg_reducedMagnitude_le {net : Network n} {face : Residual n} (potential : Potential)
    (member : face ∈ net.residuals) :
    -(net.reducedMagnitude potential : Int) ≤ face.reducedCost potential := by
  have cost := natAbs_cost_le member
  have tail := potential.natAbs_price_le face.tail
  have head := potential.natAbs_price_le face.head
  rw [reducedMagnitude, Residual.reducedCost]
  omega

namespace Frontier

variable {net : Network n} {potential : Potential} {goal : Option Int} {source : Fin n}
  {frontier next : Frontier n} {entry : Entry n} {rest : Queue n}

/-- A frontier in order. The nodes in `exempt` are being looked at. -/
structure Tidy (net : Network n) (potential : Potential) (goal : Option Int) (source : Fin n)
    (exempt : Fin n → Prop) (frontier : Frontier n) : Prop where
  ordered : Queue.Ordered frontier.queue
  named : ∀ entry ∈ frontier.queue, entry.name = entry.node.val
  near : ∀ entry ∈ frontier.queue, entry.dist < horizon
  ceiling : ∀ v, frontier.dist v ≤ horizon
  origin : frontier.dist source ≤ 0
  short : ∀ v, frontier.hops v < n
  floor : ∀ v, -(frontier.hops v * net.reducedMagnitude potential : Int) ≤ frontier.dist v
  /-- A node that has a distance and does not wait has nothing left to offer. -/
  looked : ∀ u, ¬ exempt u → frontier.dist u < horizon → frontier.Waits u ∨
    ∀ face, net.Usable face → face.tail = u →
      frontier.dist face.head ≤ frontier.dist u + face.reducedCost potential
  /-- A goal that has a distance waits, for the search ends when its turn comes. -/
  goal_waits : ∀ t : Fin n, goal = some (t.val : Int) → frontier.dist t < horizon → frontier.Waits t

/-- How far all distances lie above the floor. -/
def height (net : Network n) (potential : Potential) (frontier : Frontier n) : Int :=
  ∑ v, (frontier.dist v + n * net.reducedMagnitude potential)

/-- What gets smaller with every step. -/
def weight (net : Network n) (potential : Potential) (frontier : Frontier n) : Nat :=
  2 * (frontier.height net potential).toNat + frontier.queue.length

theorem height_relabel_lt (net : Network n) {step : Residual n × Nat}
    (improves : Improves potential entry frontier step.1) :
    (relabel potential entry frontier step).height net potential < frontier.height net potential := by
  refine Finset.sum_lt_sum (fun v _ => ?_) ⟨step.1.head, Finset.mem_univ _, ?_⟩
  · have falls := dist_relabel_le improves v
    omega
  · have cheaper := improves.cheaper
    rw [dist_relabel_self]
    omega

namespace Tidy

variable {exempt : Fin n → Prop}

theorem dist_lower (tidy : Tidy net potential goal source exempt frontier) (v : Fin n) :
    -(n * net.reducedMagnitude potential : Int) ≤ frontier.dist v := by
  have floor := tidy.floor v
  have short := tidy.short v
  have scaled : (frontier.hops v * net.reducedMagnitude potential : Int) ≤
      n * net.reducedMagnitude potential :=
    mul_le_mul_of_nonneg_right (by omega) (by omega)
  omega

theorem height_nonneg (tidy : Tidy net potential goal source exempt frontier) :
    0 ≤ frontier.height net potential := by
  apply Finset.sum_nonneg
  intro v _
  have lower := tidy.dist_lower v
  omega

theorem waits_of_pop (queue : frontier.queue = entry :: rest) {v : Fin n}
    (other : v = entry.node → frontier.dist v ≠ entry.dist) (waits : frontier.Waits v) :
    ({ frontier with queue := rest } : Frontier n).Waits v := by
  obtain ⟨waiting, member, rfl, same⟩ := waits
  rw [queue] at member
  rcases List.mem_cons.mp member with rfl | member
  · exact absurd same.symm (other rfl)
  · exact ⟨waiting, member, rfl, same⟩

/-- The least entry may be taken out of the queue if it is out of date, or if its node is
    looked at next. -/
theorem pop (tidy : Tidy net potential goal source exempt frontier)
    (queue : frontier.queue = entry :: rest)
    (exempted : frontier.dist entry.node = entry.dist → exempt entry.node ∧ goal ≠ some entry.name) :
    Tidy net potential goal source exempt { frontier with queue := rest } where
  ordered := (List.pairwise_cons.mp (queue ▸ tidy.ordered : Queue.Ordered (entry :: rest))).2
  named waiting member := tidy.named waiting (by rw [queue]; exact List.mem_cons_of_mem _ member)
  near waiting member := tidy.near waiting (by rw [queue]; exact List.mem_cons_of_mem _ member)
  ceiling := tidy.ceiling
  origin := tidy.origin
  short := tidy.short
  floor := tidy.floor
  looked u free labelled := by
    cases tidy.looked u free labelled with
    | inl waits =>
        refine .inl (waits_of_pop queue (fun here same => ?_) waits)
        subst here
        exact free (exempted same).1
    | inr done => exact .inr done
  goal_waits t aim labelled := by
    refine waits_of_pop queue (fun here same => ?_) (tidy.goal_waits t aim labelled)
    subst here
    apply (exempted same).2
    rw [aim, tidy.named entry (by rw [queue]; exact List.mem_cons_self)]

end Tidy

/-- A frontier while the node of `entry` is looked at. -/
structure Amid (net : Network n) (potential : Potential) (goal : Option Int) (source : Fin n)
    (entry : Entry n) (frontier : Frontier n) : Prop extends
    Tidy net potential goal source (fun u => u = entry.node) frontier where
  base : -(frontier.hops entry.node * net.reducedMagnitude potential : Int) ≤ entry.dist
  below : frontier.dist entry.node ≤ entry.dist
  /-- If the node takes a new label from itself, it has to be looked at again. -/
  again : frontier.dist entry.node = entry.dist ∨ frontier.Waits entry.node

namespace Amid

theorem relabel {step : Residual n × Nat} (amid : Amid net potential goal source entry frontier)
    (usable : net.Usable step.1) (improves : Improves potential entry frontier step.1)
    (short : frontier.hops entry.node + 1 < n) :
    Amid net potential goal source entry (relabel potential entry frontier step) := by
  have falls := dist_relabel_le improves
  have cost := Network.neg_reducedMagnitude_le potential usable.1
  have longer : ((frontier.hops entry.node + 1 : Nat) * net.reducedMagnitude potential : Int) =
      frontier.hops entry.node * net.reducedMagnitude potential + net.reducedMagnitude potential := by
    push_cast
    exact add_one_mul _ _
  have base := amid.base
  refine ⟨⟨?_, ?_, ?_, ?_, ?_, ?_, ?_, ?_, ?_⟩, ?_, ?_, ?_⟩
  · rw [Frontier.relabel, Queue.insert_eq_orderedInsert]
    exact amid.ordered.orderedInsert _ _
  · intro waiting member
    rcases mem_queue_relabel.mp member with rfl | member
    · rfl
    · exact amid.named waiting member
  · intro waiting member
    rcases mem_queue_relabel.mp member with rfl | member
    · exact Int.lt_of_lt_of_le improves.cheaper (amid.ceiling _)
    · exact amid.near waiting member
  · intro v
    exact Int.le_trans (falls v) (amid.ceiling v)
  · exact Int.le_trans (falls source) amid.origin
  · intro v
    by_cases here : v = step.1.head
    · rw [here, hops_relabel_self]
      exact short
    · rw [hops_relabel_of_ne here]
      exact amid.short v
  · intro v
    by_cases here : v = step.1.head
    · rw [here, hops_relabel_self, dist_relabel_self, longer, offer]
      omega
    · rw [hops_relabel_of_ne here, dist_relabel_of_ne here]
      exact amid.floor v
  · intro u free labelled
    by_cases here : u = step.1.head
    · rw [here]
      exact .inl waits_relabel_self
    · rw [dist_relabel_of_ne here] at labelled ⊢
      rw [waits_relabel_iff here]
      apply (amid.looked u free labelled).imp_right
      intro done face usable tail
      exact Int.le_trans (falls face.head) (done face usable tail)
  · intro t aim labelled
    by_cases here : t = step.1.head
    · rw [here]
      exact waits_relabel_self
    · rw [dist_relabel_of_ne here] at labelled
      exact (waits_relabel_iff here).mpr (amid.goal_waits t aim labelled)
  · by_cases here : entry.node = step.1.head
    · rw [here, hops_relabel_self, longer]
      omega
    · rw [hops_relabel_of_ne here]
      exact base
  · exact Int.le_trans (falls entry.node) amid.below
  · by_cases here : entry.node = step.1.head
    · rw [here]
      exact .inr waits_relabel_self
    · rw [dist_relabel_of_ne here, waits_relabel_iff here]
      exact amid.again

theorem finish (amid : Amid net potential goal source entry frontier)
    (looked : ∀ face, net.Usable face ∧ face.tail = entry.node →
      frontier.dist face.head ≤ offer potential entry face) :
    Tidy net potential goal source (fun _ => False) frontier where
  ordered := amid.ordered
  named := amid.named
  near := amid.near
  ceiling := amid.ceiling
  origin := amid.origin
  short := amid.short
  floor := amid.floor
  looked u _ labelled := by
    by_cases here : u = entry.node
    · subst here
      cases amid.again with
      | inl same =>
          right
          intro face usable tail
          rw [same]
          exact looked face ⟨usable, tail⟩
      | inr waits => exact .inl waits
    · exact amid.looked u here labelled
  goal_waits := amid.goal_waits

end Amid

theorem settle_tidy (size : potential.size = n)
    (tidy : Tidy net potential goal source (fun _ => False) frontier)
    (queue : frontier.queue = entry :: rest) (current : frontier.dist entry.node = entry.dist)
    (other : goal ≠ some entry.name)
    (settled : settle net potential entry { frontier with queue := rest } = .ok next) :
    Tidy net potential goal source (fun _ => False) next ∧
      next.weight net potential < frontier.weight net potential := by
  let popped : Frontier n := { frontier with queue := rest }
  have relaxed : Tidy net potential goal source (fun u => u = entry.node) frontier :=
    { tidy with looked := fun u _ => tidy.looked u id }
  have begins : Amid net potential goal source entry popped :=
    { relaxed.pop queue fun _ => ⟨rfl, other⟩ with
      base := current ▸ tidy.floor entry.node
      below := Int.le_of_eq current
      again := .inl current }
  have scan := settle_scan net popped
    (motive := fun last => Amid net potential goal source entry last ∧
      last.weight net potential ≤ popped.weight net potential) size
    (tidy.named entry (by rw [queue]; exact List.mem_cons_self))
    (fun last step _ holds usable improves short => by
      obtain ⟨amid, lighter⟩ := holds
      have relabelled := amid.relabel usable improves short
      refine ⟨relabelled, ?_⟩
      have lower := height_relabel_lt net improves
      have nonneg := relabelled.height_nonneg
      have longer := List.orderedInsert_length Entry.Before last.queue
        { dist := offer potential entry step.1, node := step.1.head }
      rw [← Queue.insert_eq_orderedInsert] at longer
      simp only [weight, Frontier.relabel, longer] at lighter lower nonneg ⊢
      omega)
    ⟨begins, Nat.le_refl _⟩
  rw [settled] at scan
  cases scan with
  | done holds _ looked =>
      obtain ⟨amid, lighter⟩ := holds
      refine ⟨amid.finish looked, Nat.lt_of_le_of_lt lighter ?_⟩
      simp only [weight, popped, queue, List.length_cons]
      exact Nat.lt_succ_self _

theorem tidy_start (net : Network n) (potential : Potential) (goal : Option Int) (source : Fin n) :
    Tidy net potential goal source (fun _ => False) (start source source.val) := by
  have nonempty : 0 < n := source.pos
  have far : (0 : Int) ≤ horizon := by decide
  have waits : (start source (source.val : Int)).Waits source :=
    ⟨_, List.mem_singleton_self _, rfl, by simp [dist, start, Label.source]⟩
  have dists : ∀ v, (start source (source.val : Int)).dist v = if v = source then 0 else horizon := by
    intro v
    simp only [dist, start, PerNode.entry_put, PerNode.entry_all, eq_comm (a := source)]
    split <;> rfl
  have hops : ∀ v, (start source (source.val : Int)).hops v = 0 := by
    intro v
    simp only [Frontier.hops, start, PerNode.entry_put, PerNode.entry_all]
    split <;> rfl
  have labelled : ∀ v, (start source (source.val : Int)).dist v < horizon → v = source := by
    intro v near
    by_contra other
    rw [dists, if_neg other] at near
    omega
  refine ⟨List.pairwise_singleton _ _, ?_, ?_, ?_, ?_, ?_, ?_, ?_, ?_⟩
  · intro waiting member
    rw [List.mem_singleton.mp member]
  · intro waiting member
    rw [List.mem_singleton.mp member]
    exact (by decide : (0 : Int) < horizon)
  · intro v
    rw [dists]
    split <;> omega
  · rw [dists, if_pos rfl]
  · intro v
    rw [hops]
    exact nonempty
  · intro v
    rw [hops, dists]
    split <;> simp [far]
  · intro u _ near
    rw [labelled u near]
    exact .inl waits
  · intro t _ near
    rw [labelled t near]
    exact waits

theorem weight_start_le (net : Network n) (potential : Potential) (source : Fin n) :
    (start source (source.val : Int)).weight net potential ≤ net.searchBudget potential := by
  have tidy := tidy_start net potential none source
  have upper : (start source (source.val : Int)).height net potential ≤
      ∑ _v : Fin n, (horizon + n * net.reducedMagnitude potential) :=
    Finset.sum_le_sum fun v _ => Int.add_le_add_right (tidy.ceiling v) _
  have nonneg := tidy.height_nonneg
  rw [Finset.sum_const, Finset.card_univ, Fintype.card_fin, nsmul_eq_mul] at upper
  have far : (0 : Int) ≤ horizon := by decide
  have budget : ((net.searchBudget potential : Nat) : Int) =
      2 * (n * (horizon + n * net.reducedMagnitude potential)) + 1 := by
    rw [Network.searchBudget_eq]
    push_cast
    rw [Int.toNat_of_nonneg far, mul_assoc]
  have length : (start source (source.val : Int)).queue.length = 1 := rfl
  simp only [weight, length]
  omega

/-- A search keeps its frontier in order to the end, and whatever else dropping an overtaken
    entry and looking at a node keep. It never runs out of steps. -/
theorem drain_tidy (net : Network n) (goal : Option Int) (source : Fin n)
    {motive : Frontier n → Prop} (size : potential.size = n) (starts : motive (start source source.val))
    (skips : ∀ frontier entry rest, Tidy net potential goal source (fun _ => False) frontier →
      motive frontier → frontier.queue = entry :: rest → frontier.dist entry.node ≠ entry.dist →
      motive { frontier with queue := rest })
    (settles : ∀ frontier entry rest next, Tidy net potential goal source (fun _ => False) frontier →
      motive frontier → frontier.queue = entry :: rest → frontier.dist entry.node = entry.dist →
      settle net potential entry { frontier with queue := rest } = .ok next → motive next) :
    Ending net potential goal
      (fun last => Tidy net potential goal source (fun _ => False) last ∧ motive last)
      (drain net potential goal (net.searchBudget potential) (start source source.val)) := by
  refine drain_ending (weight net potential) (fun frontier => Nat.le_add_left _ _) ?_ ?_ _
    ⟨tidy_start net potential goal source, starts⟩ (weight_start_le net potential source)
  · intro frontier entry rest holds queue overtaken
    obtain ⟨tidy, more⟩ := holds
    refine ⟨⟨tidy.pop queue fun same => absurd same overtaken,
      skips frontier entry rest tidy more queue overtaken⟩, ?_⟩
    simp only [weight, queue, List.length_cons]
    exact Nat.lt_succ_self _
  · intro frontier entry rest next holds queue current other settled
    obtain ⟨tidy, more⟩ := holds
    obtain ⟨tidied, lighter⟩ := settle_tidy size tidy queue current other settled
    exact ⟨⟨tidied, settles frontier entry rest next tidy more queue current settled⟩, lighter⟩

end Frontier

end MinCostFlow
