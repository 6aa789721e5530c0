import MinCostFlow.Proofs.Flow.Duality

/-! # What one more unit costs

The cheapest flows of each value put a price on every single unit: what it adds to the least cost.
Node prices that no usable face undercuts bound that price from below, and faces that such prices
make tight attain it.
-/

namespace MinCostFlow.Network

open Finset

variable {n : Nat} {net start other : Network n} {source sink : Fin n} {value more : Int}

/-- Some flow carries this much at this cost, and none that carries as much costs less. -/
def LeastCost (net : Network n) (source sink : Fin n) (value cost : Int) : Prop :=
  ∃ other, SameArcs other net ∧ other.Carries source sink value ∧
    other.IsCheapest source sink value ∧ other.totalCost = cost

/-- What the last of so many units adds to the least cost. Before the first unit that is nothing. -/
def UnitCost (net : Network n) (source sink : Fin n) : Nat → Int → Prop
  | 0, cost => cost = 0
  | count + 1, cost => ∃ before after, net.LeastCost source sink count before ∧
    net.LeastCost source sink (count + 1 : Nat) after ∧ cost = after - before

/-- After so many units the next one costs at least a horizon more than the last. -/
def Leap (net : Network n) (source sink : Fin n) (count : Nat) : Prop :=
  ∃ last next, net.UnitCost source sink count last ∧ net.UnitCost source sink (count + 1) next ∧
    last + horizon ≤ next

theorem LeastCost.unique {left right : Int} (first : net.LeastCost source sink value left)
    (second : net.LeastCost source sink value right) : left = right := by
  obtain ⟨one, same, carries, cheapest, rfl⟩ := first
  obtain ⟨two, again, others, lowest, rfl⟩ := second
  exact Int.le_antisymm (cheapest two (again.trans same.symm) others)
    (lowest one (same.trans again.symm) carries)

theorem UnitCost.unique {count : Nat} {left right : Int}
    (first : net.UnitCost source sink count left) (second : net.UnitCost source sink count right) :
    left = right := by
  cases count with
  | zero => exact first.trans second.symm
  | succ count =>
      obtain ⟨before, after, low, high, rfl⟩ := first
      obtain ⟨_, _, low', high', rfl⟩ := second
      rw [low.unique low', high.unique high']

theorem not_leap {count : Nat} {last next : Int} (before : net.UnitCost source sink count last)
    (after : net.UnitCost source sink (count + 1) next) (near : next < last + horizon) :
    ¬ net.Leap source sink count := by
  rintro ⟨_, _, before', after', far⟩
  have same := before.unique before'
  have same' := after.unique after'
  omega

/-- Under prices that no usable face undercuts, each unit more or less is worth what the prices of
    the terminals differ by. -/
theorem Carries.totalCost_add_le (carries : net.Carries source sink value)
    (others : other.Carries source sink more) (same : SameArcs other net) (apart : source ≠ sink)
    {potential : Potential} (fair : ∀ face, net.Usable face → 0 ≤ face.reducedCost potential) :
    net.totalCost + (more - value) * (potential.price sink - potential.price source) ≤
      other.totalCost := by
  have bound := Network.totalCost_add_le potential same others.within
    fun _ _ _ _ _ _ face _ => fair face
  have worth : ∑ v, potential.price v * (other.exactBalance v - net.exactBalance v) =
      (more - value) * (potential.price sink - potential.price source) := by
    have away : ∀ v ∈ univ, v ∉ ({source, sink} : Finset (Fin n)) →
        potential.price v * (other.exactBalance v - net.exactBalance v) = 0 := by
      intro v _ outside
      simp only [mem_insert, mem_singleton, not_or] at outside
      rw [carries.kept v outside.1 outside.2, others.kept v outside.1 outside.2, sub_self, mul_zero]
    rw [← sum_subset (subset_univ _) away, sum_pair apart, carries.supplied, others.supplied,
      carries.received, others.received]
    ring
  rwa [worth] at bound

theorem leastCost_of_fair (same : SameArcs net start) (carries : net.Carries source sink value)
    (apart : source ≠ sink) {potential : Potential}
    (fair : ∀ face, net.Usable face → 0 ≤ face.reducedCost potential) :
    start.LeastCost source sink value net.totalCost := by
  refine ⟨net, same, carries, fun other again others => ?_, rfl⟩
  have bound := carries.totalCost_add_le others again apart fair
  simpa using bound

theorem Carries.pushEach {faces : List (Residual n)} {amount : Int}
    (carries : net.Carries source sink value) (walk : Walk net.Usable source faces sink)
    (simple : (visits source faces).Nodup) (apart : source ≠ sink) (nonneg : 0 ≤ amount)
    (fits : ∀ face ∈ faces, amount ≤ face.room) :
    (net.pushEach faces amount).Carries source sink (value + amount) := by
  have separate := Separate.of_walk walk simple
  have balance := fun v => separate.exactBalance_pushEach walk amount v
  exact {
    within := separate.withinCapacity_pushEach carries.within nonneg fits
    supplied := by
      rw [balance, carries.supplied, if_pos rfl, if_neg apart.symm]
      omega
    received := by
      rw [balance, carries.received, if_pos rfl, if_neg apart]
      omega
    kept := fun v inner outer => by
      rw [balance, carries.kept v inner outer, if_neg inner.symm, if_neg outer.symm]
      rfl }

theorem exists_leastCost (same : SameArcs net start) (carries : net.Carries source sink value)
    {bound : Int} (lower : ∀ other, SameArcs other start → other.Carries source sink value →
      bound ≤ other.totalCost) :
    ∃ cost, start.LeastCost source sink value cost ∧ bound ≤ cost := by
  obtain ⟨cost, ⟨other, again, others, rfl⟩, least⟩ := Int.exists_least_of_bdd
    (P := fun cost => ∃ other, SameArcs other start ∧ other.Carries source sink value ∧
      other.totalCost = cost)
    ⟨bound, by
      rintro _ ⟨other, again, others, rfl⟩
      exact lower other again others⟩
    ⟨_, net, same, carries, rfl⟩
  refine ⟨_, ⟨other, again, others, fun third still thirds => ?_, rfl⟩, lower other again others⟩
  exact least _ ⟨third, still.trans again, thirds, rfl⟩

end MinCostFlow.Network
