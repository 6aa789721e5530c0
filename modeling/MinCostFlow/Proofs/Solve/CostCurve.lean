import Mathlib.Tactic.Linarith
import MinCostFlow.Proofs.Solve.Capped
import MinCostFlow.Proofs.Solve.Journal

/-! # How the cost grows with the cap

The units of a solve stand in a row by price, cheapest first, and a cap takes the first of them. So
up to the maximum each further unit adds at least as much to the cost as the one before. From there
on a higher cap adds nothing: costs are convex up to the maximum, and beyond it they are flat.
-/

namespace MinCostFlow

variable {n : Nat}

theorem length_mul_sum_le {left right : List Int} (le : ∀ low ∈ left, ∀ high ∈ right, low ≤ high) :
    right.length * left.sum ≤ left.length * right.sum := by
  induction left with
  | nil => simp
  | cons low rest ih =>
      have first := List.card_nsmul_le_sum right low (le low List.mem_cons_self)
      have others := ih fun other member => le other (List.mem_cons_of_mem _ member)
      rw [nsmul_eq_mul] at first
      rw [List.length_cons, List.sum_cons, Nat.cast_succ]
      linarith

/-- Between any two totals of a range, costs lie nowhere above the straight line. -/
def ConvexWithin (range : Int → Prop) (cost : Int → Int) : Prop :=
  ∀ low mid high, range low → range high → low ≤ mid → mid ≤ high →
    (high - low) * cost mid ≤ (high - mid) * cost low + (mid - low) * cost high

/-- To take the first of a row that does not fall costs more and more. -/
theorem convexWithin_of_sorted {prices : List Int} (sorted : prices.Pairwise (· ≤ ·)) :
    ConvexWithin (fun count => 0 ≤ count ∧ count ≤ prices.length)
      fun count => (prices.take count.toNat).sum := by
  rintro low mid high ⟨nonneg, _⟩ ⟨_, within⟩ le le'
  have steps := sum_take_of_le (Int.toNat_le_toNat le) prices
  have steps' := sum_take_of_le (Int.toNat_le_toNat le') prices
  have rises : ∀ price ∈ (prices.take mid.toNat).drop low.toNat,
      ∀ other ∈ (prices.take high.toNat).drop mid.toNat, price ≤ other := by
    rw [← List.take_append_drop mid.toNat prices, List.pairwise_append] at sorted
    intro price before other after
    rw [List.drop_take] at after
    exact sorted.2.2 price (List.mem_of_mem_drop before) other (List.mem_of_mem_take after)
  have average := length_mul_sum_le rises
  have count : (((prices.take mid.toNat).drop low.toNat).length : Int) = mid - low := by
    rw [List.length_drop, List.length_take]
    omega
  have count' : (((prices.take high.toNat).drop mid.toNat).length : Int) = high - mid := by
    rw [List.length_drop, List.length_take]
    omega
  rw [count, count'] at average
  dsimp only
  rw [steps', steps]
  linarith

section UnitPrices

variable {augmentations : List Augmentation}

theorem sorted_unitPrices
    (rising : augmentations.Pairwise fun earlier later => earlier.unitCost ≤ later.unitCost) :
    (unitPrices augmentations).Pairwise (· ≤ ·) := by
  induction rising with
  | nil => exact .nil
  | @cons sent rest below _ ih =>
      rw [unitPrices_cons, List.pairwise_append]
      refine ⟨List.pairwise_replicate.mpr (.inr (Int.le_refl _)), ih, fun price here other there => ?_⟩
      obtain ⟨later, member, again⟩ := List.mem_flatMap.mp there
      rw [List.eq_of_mem_replicate here, List.eq_of_mem_replicate again]
      exact below later member

theorem length_unitPrices (positive : ∀ sent ∈ augmentations, 0 < sent.units) :
    ((unitPrices augmentations).length : Int) = unitsOf augmentations := by
  induction augmentations with
  | nil => rfl
  | cons sent rest ih =>
      obtain ⟨first, others⟩ := List.forall_mem_cons.mp positive
      rw [unitPrices_cons, List.length_append, List.length_replicate, unitsOf_cons, ← ih others]
      omega

theorem sum_unitPrices (positive : ∀ sent ∈ augmentations, 0 < sent.units) :
    (unitPrices augmentations).sum = costOf augmentations := by
  induction augmentations with
  | nil => rfl
  | cons sent rest ih =>
      obtain ⟨first, others⟩ := List.forall_mem_cons.mp positive
      rw [unitPrices_cons, List.sum_append, List.sum_replicate_int, costOf_cons, ih others,
        Int.toNat_of_nonneg (Int.le_of_lt first)]

end UnitPrices

namespace Network

variable {net : Network n} {source sink : Fin n} {options : Options} {maximum : Int}

/-- What solves answer as the cap grows. The flow follows the cap up to the maximum, and up to there
    costs are convex. A higher cap changes nothing, and nor does it to have none. -/
structure CostCurve (net : Network n) (source sink : Fin n) (options : Options) (maximum : Int)
    (cost : Int → Int) : Prop where
  largest : net.IsMaximum source sink maximum
  capped : ∀ cap, 0 ≤ cap → (net.solve source.val sink.val (options.limited (some cap))).outcome =
    .ok { flow := min cap maximum, cost := cost cap }
  uncapped : (net.solve source.val sink.val (options.limited none)).outcome =
    .ok { flow := maximum, cost := cost maximum }
  convex : ConvexWithin (fun cap => 0 ≤ cap ∧ cap ≤ maximum) cost
  flat : ∀ cap, maximum ≤ cap → cost cap = cost maximum

section Fresh

variable (fresh : net.Fresh) (acyclic : ¬ net.HasNegativeCycle)
  (small : 4 * (net.costMagnitude : Int) < horizon) (apart : source ≠ sink)
  (allow : options.allowNegativeCosts = true) (unverified : options.verifyConservation = false)

include fresh acyclic small apart allow unverified

theorem Fresh.solve_ledger (cap : ∀ bound, options.maxFlow = some bound → 0 ≤ bound) :
    (net.solve source.val sink.val options).Ledger net source sink options := by
  have live := net.liveMagnitude_le
  obtain ⟨searches, _⟩ := fresh.solve_answers acyclic small apart cap allow unverified
  rw [searches]
  exact fresh.solveBetween_ledger (fresh.harmless acyclic source) (by omega) apart cap unverified

theorem Fresh.unitsOf_eq (cap : ∀ bound, options.maxFlow = some bound → 0 ≤ bound)
    (largest : net.IsMaximum source sink maximum) :
    unitsOf (net.solve source.val sink.val options).augmentations =
      options.maxFlow.elim maximum fun bound => min bound maximum := by
  have live := net.liveMagnitude_le
  obtain ⟨searches, _⟩ := fresh.solve_answers acyclic small apart cap allow unverified
  obtain ⟨last, pursued, sound, ended⟩ := fresh.exists_last options (fresh.harmless acyclic source)
    (by omega) apart cap
  have answer := (net.solveBetween_accounts source sink options).answer _
    (outcome_of_last pursued unverified)
  rw [searches, ← ended.flow_eq sound fresh apart largest]
  exact (congrArg FlowCost.flow answer).symm

theorem Fresh.exists_costCurve : ∃ maximum cost, net.CostCurve source sink options maximum cost := by
  obtain ⟨maximum, largest⟩ := fresh.exists_largest source sink
  have units {limit : Option Int} (nonneg : ∀ bound, limit = some bound → 0 ≤ bound) :
      unitsOf (net.solve source.val sink.val (options.limited limit)).augmentations =
        limit.elim maximum fun bound => min bound maximum :=
    @Fresh.unitsOf_eq n net source sink (options.limited limit) maximum fresh acyclic small apart allow
      unverified nonneg largest
  have ledger : (net.solve source.val sink.val (options.limited none)).Ledger net source sink
      (options.limited none) := fresh.solve_ledger acyclic small apart allow unverified nofun
  have count : ((unitPrices (net.solve source.val sink.val (options.limited none)).augmentations).length
      : Int) = maximum := (length_unitPrices ledger.positive).trans (@units none nofun)
  have all := sum_unitPrices ledger.positive
  refine ⟨maximum, fun cap => ((unitPrices
    (net.solve source.val sink.val (options.limited none)).augmentations).take cap.toNat).sum, {
      largest
      capped := ?_
      uncapped := ?_
      convex := ?_
      flat := ?_ }⟩
  · intro cap nonneg
    have caps := fresh.caps acyclic small apart allow unverified nonneg
    have sent := @units (some cap) (by
      rintro _ ⟨⟩
      exact nonneg)
    rw [caps.answered, sent, caps.cost]
    rfl
  · rw [ledger.answered, @units none nofun, ← all, List.take_of_length_le (by omega)]
    rfl
  · rw [← count]
    exact convexWithin_of_sorted (sorted_unitPrices ledger.rising)
  · intro cap beyond
    rw [List.take_of_length_le (by omega), List.take_of_length_le (by omega)]

end Fresh

/-- At the finest level the journal of a solve is an exact account of its augmentations, none of
    which is cheaper than the one before. So what a solve answers under a cap is convex in the cap, up
    to the maximum. -/
theorem solve_keeps_ledger (net : Network n) (fresh : net.Fresh) (acyclic : ¬ net.HasNegativeCycle)
    (small : 4 * (net.costMagnitude : Int) < horizon) (source sink : Fin n) (apart : source ≠ sink)
    (options : Options) (cap : ∀ bound, options.maxFlow = some bound → 0 ≤ bound)
    (allow : options.allowNegativeCosts = true) (unverified : options.verifyConservation = false) :
    (net.solve source.val sink.val options).Ledger net source sink options ∧
      ∃ maximum cost, net.CostCurve source sink options maximum cost :=
  ⟨fresh.solve_ledger acyclic small apart allow unverified cap,
    fresh.exists_costCurve acyclic small apart allow unverified⟩

theorem solve_keeps_ledger_twoWays :
    (twoWays.solve 0 3 { maxFlow := some 2, seedPotentials := true }).Ledger twoWays 0 3
        { maxFlow := some 2, seedPotentials := true } ∧
      ∃ maximum cost, twoWays.CostCurve 0 3 { maxFlow := some 2, seedPotentials := true } maximum cost :=
  solve_keeps_ledger twoWays (by decide) not_hasNegativeCycle_twoWays (by decide) 0 3 (by decide)
    { maxFlow := some 2, seedPotentials := true } (by
      rintro _ ⟨⟩
      decide) rfl rfl

/-- Beyond the maximum costs stay what they are, and then they are not convex over all caps: the
    second unit costs 5, and a third one cannot be sent. -/
theorem costs_not_convex_twoWays :
    twoWays.Fresh ∧ ¬ twoWays.HasNegativeCycle ∧ 4 * (twoWays.costMagnitude : Int) < horizon ∧
      ¬ ∃ cost : Int → Int, ConvexWithin (0 ≤ ·) cost ∧ ∀ cap, 0 ≤ cap →
        (twoWays.solve 0 3 { maxFlow := some cap }).outcome.map FlowCost.cost = .ok (cost cap) := by
  refine ⟨by decide, not_hasNegativeCycle_twoWays, by decide, ?_⟩
  rintro ⟨cost, convex, answers⟩
  have first : (twoWays.solve 0 3 { maxFlow := some 1 }).outcome.map FlowCost.cost = .ok (-3) := by
    decide +kernel
  have second : (twoWays.solve 0 3 { maxFlow := some 2 }).outcome.map FlowCost.cost = .ok 2 := by
    decide +kernel
  have third : (twoWays.solve 0 3 { maxFlow := some 3 }).outcome.map FlowCost.cost = .ok 2 := by
    decide +kernel
  have one := Except.ok.inj (first.symm.trans (answers 1 (by decide)))
  have two := Except.ok.inj (second.symm.trans (answers 2 (by decide)))
  have three := Except.ok.inj (third.symm.trans (answers 3 (by decide)))
  have straight := convex 1 2 3 (by decide) (by decide) (by decide) (by decide)
  omega

end Network

end MinCostFlow
