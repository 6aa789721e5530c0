import Mathlib.Algebra.BigOperators.Fin
import Mathlib.Algebra.Order.BigOperators.Group.Finset
import Mathlib.Data.Int.LeastGreatest
import MinCostFlow.Network.Flow
import MinCostFlow.Proofs.Walk.Simple

/-! # What walks can cost

A walk that visits no node twice uses each arc at most once, so its cost lies within the
sum of all magnitudes. If no closed walk costs less than nothing, every node has a least
cost of walks that end there; taken as node prices these make every face cost at least
zero. Conversely such prices rule out closed walks of negative cost.
-/

namespace MinCostFlow

variable {n : Nat}

theorem sum_map_filter {α M : Type} [AddCommMonoid M] (keep : α → Prop) [DecidablePred keep]
    (amount : α → M) (items : List α) :
    ((items.filter keep).map amount).sum =
      (items.map fun item => if keep item then amount item else 0).sum := by
  simp [List.sum_map_ite]

/-- The part of an arc's price that can count: an arc that can hold nothing is never used. -/
def Arc.load (arc : Arc n) : Nat := if 0 < arc.capacity then arc.cost.natAbs else 0

namespace Network

variable {net : Network n}

/-- What one unit on every arc that can hold something costs, signs left aside. -/
def liveMagnitude (net : Network n) : Nat := (net.arcs.map Arc.load).sum

theorem liveMagnitude_le (net : Network n) : net.liveMagnitude ≤ net.costMagnitude := by
  apply List.sum_le_sum
  intro arc _
  unfold Arc.load
  split <;> omega

theorem arc_of_mem {face : Residual n} (member : face ∈ net.residuals) :
    ∃ arc, net.arcs[face.arc]? = some arc ∧
      (face = arc.along face.arc ∨ face = arc.against face.arc) := by
  obtain ⟨position, arc, found, rfl | rfl⟩ := mem_residuals.mp member
  · exact ⟨arc, found, .inl rfl⟩
  · exact ⟨arc, found, .inr rfl⟩

theorem eq_or_reversed {left right : Residual n} (first : left ∈ net.residuals)
    (second : right ∈ net.residuals) (same : left.arc = right.arc) :
    left = right ∨ left.tail = right.head ∧ left.head = right.tail := by
  obtain ⟨arc, found, first⟩ := arc_of_mem first
  obtain ⟨other, again, second⟩ := arc_of_mem second
  rw [same, again] at found
  obtain rfl := Option.some.inj found
  rw [same] at first
  rcases first with first | first <;> rcases second with second | second <;>
    rw [first, second] <;> simp [Arc.along, Arc.against]

theorem natAbs_cost_le_load {face : Residual n} (within : net.WithinCapacity)
    (usable : net.Usable face) :
    ∃ arc, net.arcs[face.arc]? = some arc ∧ face.cost.natAbs ≤ arc.load := by
  obtain ⟨arc, found, side⟩ := arc_of_mem usable.1
  have bounds := within arc (List.mem_of_getElem? found)
  have room := usable.2
  refine ⟨arc, found, ?_⟩
  rcases side with side | side <;> rw [side] at room ⊢ <;>
    simp only [Arc.along, Arc.against, Arc.room, Arc.load] at room ⊢ <;>
    split <;> omega

end Network

/-- What stands at different places of a list adds up to no more than the whole list. -/
theorem sum_le_of_nodup {α β : Type} {items : List α} {picks : List β} {place : β → Nat}
    {weight : α → Nat} {share : β → Nat} (distinct : (picks.map place).Nodup)
    (fits : ∀ pick ∈ picks, ∃ item, items[place pick]? = some item ∧ share pick ≤ weight item) :
    (picks.map share).sum ≤ (items.map weight).sum := by
  let worth (position : Nat) : Nat := (items[position]?.map weight).getD 0
  have shares : (picks.map share).sum ≤ (picks.map fun pick => worth (place pick)).sum := by
    apply List.sum_le_sum
    intro pick member
    obtain ⟨item, found, le⟩ := fits pick member
    simpa [worth, found] using le
  have picked : (picks.map fun pick => worth (place pick)).sum =
      ∑ position ∈ (picks.map place).toFinset, worth position := by
    rw [List.sum_toFinset _ distinct, List.map_map, Function.comp_def]
  have inside : (picks.map place).toFinset ⊆ Finset.range items.length := by
    intro position member
    obtain ⟨pick, picked, rfl⟩ := List.mem_map.mp (List.mem_toFinset.mp member)
    obtain ⟨item, found, _⟩ := fits pick picked
    exact Finset.mem_range.mpr (List.getElem?_eq_some_iff.mp found).1
  have whole : ∑ position ∈ Finset.range items.length, worth position =
      (items.map weight).sum := by
    rw [Finset.sum_range, ← List.sum_ofFn]
    congr 1
    apply List.ext_getElem?
    intro position
    by_cases bound : position < items.length <;> simp [worth, bound]
  calc
    (picks.map share).sum ≤ ∑ position ∈ (picks.map place).toFinset, worth position :=
      picked ▸ shares
    _ ≤ ∑ position ∈ Finset.range items.length, worth position :=
      Finset.sum_le_sum_of_subset inside
    _ = (items.map weight).sum := whole

namespace Walk

variable {net : Network n} {u v : Fin n} {faces : List (Residual n)}

theorem nodup_arcs (walk : Walk net.Usable u faces v) (simple : (visits u faces).Nodup) :
    (faces.map Residual.arc).Nodup := by
  induction walk with
  | nil => simp
  | @cons face rest v usable walk ih =>
      obtain ⟨fresh, simple⟩ := List.nodup_cons.mp simple
      refine List.nodup_cons.mpr ⟨fun member => fresh ?_, ih simple⟩
      obtain ⟨other, later, same⟩ := List.mem_map.mp member
      rcases Network.eq_or_reversed (walk.allowed_of_mem later).1 usable.1 same with
        rfl | ⟨_, back⟩
      · exact walk.tail_mem_visits later
      · exact back ▸ head_mem_visits _ later

theorem natAbs_walkCost_le_of_weight {weight : Arc n → Nat} (walk : Walk net.Usable u faces v)
    (simple : (visits u faces).Nodup)
    (fits : ∀ face ∈ faces, ∃ arc, net.arcs[face.arc]? = some arc ∧ face.cost.natAbs ≤ weight arc) :
    (walkCost faces).natAbs ≤ (net.arcs.map weight).sum := by
  have bound := List.le_sum_of_subadditive Int.natAbs Int.natAbs_zero.le Int.natAbs_add_le
    (faces.map Residual.cost)
  rw [List.map_map] at bound
  exact Nat.le_trans bound (sum_le_of_nodup (walk.nodup_arcs simple) fits)

theorem natAbs_walkCost_le (within : net.WithinCapacity) (walk : Walk net.Usable u faces v)
    (simple : (visits u faces).Nodup) : (walkCost faces).natAbs ≤ net.liveMagnitude :=
  walk.natAbs_walkCost_le_of_weight simple fun _ member =>
    Network.natAbs_cost_le_load within (walk.allowed_of_mem member)

theorem reducedWalkCost_nonneg {allowed : Residual n → Prop} {potential : Potential}
    (fair : ∀ face ∈ faces, 0 ≤ face.reducedCost potential) (walk : Walk allowed u faces v) :
    0 ≤ reducedWalkCost potential faces := by
  induction walk with
  | nil => exact Int.le_refl _
  | cons _ _ ih =>
      have first := fair _ List.mem_cons_self
      have others := ih fun face member => fair face (List.mem_cons_of_mem _ member)
      simp only [reducedWalkCost, List.map_cons, List.sum_cons] at others ⊢
      omega

end Walk

namespace Network

variable {net : Network n} {allowed : Residual n → Prop}

theorem not_negativeCycleAt (potential : Potential) {u : Fin n}
    (fair : ∀ face, allowed face → Reaches allowed u face.tail → 0 ≤ face.reducedCost potential) :
    ¬ NegativeCycleAt allowed u := by
  rintro ⟨faces, walk, negative⟩
  have reached : ∀ face ∈ faces, Reaches allowed u face.tail := by
    intro face member
    obtain ⟨front, _, _, first⟩ := walk.mem_visits_iff.mp (walk.tail_mem_visits member)
    exact ⟨front, first⟩
  have nonneg := walk.reducedWalkCost_nonneg fun face member =>
    fair face (walk.allowed_of_mem member) (reached face member)
  rw [walk.reducedWalkCost_closed] at nonneg
  omega

theorem price_ofFn (prices : Fin n → Int) (v : Fin n) :
    Potential.price (Array.ofFn prices) v = prices v := by
  simp [Potential.price]

/-- Where no closed walk costs less than nothing there are fair prices: to each node the
    least cost of a walk that ends there. -/
theorem exists_fair_prices (within : net.WithinCapacity)
    (usable : ∀ face, allowed face → net.Usable face)
    (harmless : ∀ u, ¬ NegativeCycleAt allowed u) :
    ∃ potential : Potential, ∀ face, allowed face → 0 ≤ face.reducedCost potential := by
  let Costs (v : Fin n) (cost : Int) : Prop :=
    ∃ u faces, Walk allowed u faces v ∧ walkCost faces = cost
  have least : ∀ v, ∃ cost, Costs v cost ∧ ∀ other, Costs v other → cost ≤ other := by
    intro v
    refine Int.exists_least_of_bdd ⟨-net.liveMagnitude, ?_⟩ ⟨0, v, [], .nil v, rfl⟩
    rintro cost ⟨u, faces, walk, rfl⟩
    obtain ⟨short, walk, simple, cheaper⟩ := walk.exists_simple
    have bound := (walk.mono usable).natAbs_walkCost_le within simple
    have le := cheaper fun x _ => harmless x
    omega
  choose cost attained lower using least
  refine ⟨Array.ofFn cost, fun face fits => ?_⟩
  obtain ⟨u, faces, walk, same⟩ := attained face.tail
  have le := lower face.head _ ⟨u, faces ++ [face], walk.snoc rfl fits, rfl⟩
  rw [walkCost_append, same] at le
  simp only [walkCost, List.map_cons, List.map_nil, List.sum_cons, List.sum_nil] at le
  rw [Residual.reducedCost, price_ofFn, price_ofFn]
  omega

end Network

end MinCostFlow
