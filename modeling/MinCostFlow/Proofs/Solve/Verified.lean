import MinCostFlow.Proofs.Flow.Verdict
import MinCostFlow.Proofs.Solve.Conservation
import MinCostFlow.Sample.Networks

/-! # The check after a solve

The check works in words that wrap around, while a solve works in integers without bounds. Still
the check never complains about what a solve has sent: the words of a balance do not depend on the
order in which amounts are added, so where sums run over on the way they come back. All that the
check can find is a number that does not fit a word, and then the flow stays on the network.

Of a network with any other flow the check sees as much as a word can tell. It finds the first node
whose balance is off, unless it is off by a multiple of `2 ^ 64`.
-/

namespace MinCostFlow.Network

variable {n : Nat} {net : Network n} {source sink : Fin n} {options : Options} {amount : Int}

theorem Carries.exactBalance_eq (carries : net.Carries source sink amount) (v : Fin n) :
    net.exactBalance v = demand source sink amount v := by
  unfold demand
  split
  · rename_i target
    exact target ▸ carries.received
  · split
    · rename_i origin
      exact origin ▸ carries.supplied
    · rename_i outer inner
      exact carries.kept v (Ne.symm inner) (Ne.symm outer)

/-- Of a flow that keeps its balances the check can only say that some number is too wide. -/
theorem Carries.verifyConservation_cases (carries : net.Carries source sink amount) :
    ((net.Storable ∧ Word.Fits amount ∧ Word.Fits (-amount)) ∧
        (net.verifyConservation source.val sink.val amount).2 = .ok ()) ∨
      (¬ (net.Storable ∧ Word.Fits amount ∧ Word.Fits (-amount)) ∧
        (net.verifyConservation source.val sink.val amount).2 = .error .tooWide) := by
  rcases net.imbalance?_cases source sink amount with ⟨fits, _⟩ | ⟨wide, failed⟩
  · obtain ⟨storable, receipt, supply⟩ := fits
    rcases storable.verifyConservation_cases receipt supply source sink with
      ⟨_, accepted⟩ | ⟨v, off, _⟩
    · exact .inl ⟨⟨storable, receipt, supply⟩, congrArg Prod.snd accepted⟩
    · exact absurd (tallies_of_eq (carries.exactBalance_eq v)) off
  · rw [verifyConservation, failed]
    exact .inr ⟨wide, rfl⟩

theorem fits_and_fits_neg_iff (nonneg : 0 ≤ amount) :
    Word.Fits amount ∧ Word.Fits (-amount) ↔ amount < 9223372036854775808 := by
  unfold Word.Fits
  omega

theorem storable_of_counted (counted : (n : Int) ≤ 9223372036854775808)
    (fits : ∀ arc ∈ net.arcs, Word.Fits arc.capacity ∧ Word.Fits arc.cost ∧ Word.Fits arc.flow) :
    net.Storable := by
  have node : ∀ v : Fin n, Word.Fits v.val := by
    intro v
    have bound := v.isLt
    unfold Word.Fits
    omega
  intro arc member
  obtain ⟨capacity, cost, flow⟩ := fits arc member
  exact ⟨node arc.tail, node arc.head, capacity, cost, flow⟩

theorem Fresh.storable_iff (fresh : net.Fresh) (counted : (n : Int) ≤ 9223372036854775808) :
    net.Storable ↔ ∀ arc ∈ net.arcs, Word.Fits arc.capacity ∧ Word.Fits arc.cost := by
  constructor
  · intro storable arc member
    exact ⟨(storable arc member).capacity, (storable arc member).cost⟩
  · intro fits
    refine storable_of_counted counted fun arc member => ?_
    rw [fresh arc member]
    exact ⟨(fits arc member).1, (fits arc member).2, by decide⟩

/-- The check after a solve makes no difference but to find numbers that are too wide for it. It
    never complains about a balance. With it a solve gives the answer that it gives without it
    exactly when all numbers of the arcs and the flow fit words, and whether it does or not, it
    leaves the same network. -/
theorem check_is_transparent (net : Network n) (fresh : net.Fresh) (acyclic : ¬ net.HasNegativeCycle)
    (small : 4 * (net.liveMagnitude : Int) < horizon) (source sink : Fin n) (apart : source ≠ sink)
    (options : Options) (cap : ∀ bound, options.maxFlow = some bound → 0 ≤ bound)
    (allow : options.allowNegativeCosts = true) :
    let plain := net.solve source.val sink.val { options with verifyConservation := false }
    let checked := net.solve source.val sink.val { options with verifyConservation := true }
    ∃ answer, plain.outcome = .ok answer ∧ checked.network = plain.network ∧
      (checked.outcome = .ok answer ↔ net.Storable ∧ answer.flow < 9223372036854775808) ∧
      (checked.outcome = .ok answer ∨ checked.outcome = .error .tooWide) ∧
      ((n : Int) ≤ 9223372036854775808 →
        (net.Storable ↔ ∀ arc ∈ net.arcs, Word.Fits arc.capacity ∧ Word.Fits arc.cost)) := by
  obtain ⟨last, pursued, sound, _⟩ :=
    fresh.exists_last options (fresh.harmless acyclic source) (by omega) apart cap
  have silent : ∀ verify, net.objection? { options with verifyConservation := verify } = none :=
    fun verify => objection?_eq_none cap allow fun _ => acyclic
  obtain ⟨network, outcome⟩ :=
    @solveBetween_of_last n net source sink { options with verifyConservation := false } last pursued
  obtain ⟨network', outcome'⟩ :=
    @solveBetween_of_last n net source sink { options with verifyConservation := true } last pursued
  have storable := storable_iff_of_sameArcs sound.same fresh.withinCapacity sound.within
  have carries := sound.carries fresh apart
  dsimp only
  rw [net.solve_eq apart, net.solve_eq apart, silent, silent]
  dsimp only
  rw [network, network', outcome, outcome']
  refine ⟨_, rfl, rfl, ?_, ?_, fresh.storable_iff⟩
  · rw [← storable, ← fits_and_fits_neg_iff sound.nonneg, if_pos rfl]
    rcases carries.verifyConservation_cases with ⟨fits, verdict⟩ | ⟨wide, verdict⟩
    · rw [verdict]
      exact iff_of_true rfl fits
    · rw [verdict]
      exact iff_of_false nofun wide
  · rcases carries.verifyConservation_cases with ⟨_, verdict⟩ | ⟨_, verdict⟩
    · exact .inl (by rw [if_pos rfl, verdict]; rfl)
    · exact .inr (by rw [if_pos rfl, verdict]; rfl)

theorem check_is_transparent_wideArc :
    (wideArc.solve 0 1 { maxFlow := some 3, verifyConservation := true }).outcome = .error .tooWide ∧
      (wideArc.solve 0 1 { maxFlow := some 3, verifyConservation := true }).network =
        (wideArc.solve 0 1 { maxFlow := some 3 }).network := by
  have acyclic : ¬ wideArc.HasNegativeCycle := not_hasNegativeCycle_of_cost_nonneg (by decide)
  obtain ⟨answer, _, network, answered, ends, storable⟩ :=
    check_is_transparent wideArc (by decide) acyclic (by decide) 0 1 (by decide)
      { maxFlow := some 3 } (by rintro _ ⟨⟩; decide) rfl
  have wide : ¬ wideArc.Storable := by
    rw [storable (by decide)]
    decide
  exact ⟨ends.resolve_left fun same => wide (answered.mp same).1, network⟩

theorem network_solve_checked (net : Network n) (source sink : Int) (options : Options)
    (verify : Bool) :
    (net.solve source sink { options with verifyConservation := verify }).network =
      (net.solve source sink options).network := by
  have between (s t : Fin n) :
      (net.solveBetween s t { options with verifyConservation := verify }).network =
        (net.solveBetween s t options).network :=
    (net.solveBetween_fields s t _).1.trans (net.solveBetween_fields s t options).1.symm
  have objection : net.objection? { options with verifyConservation := verify } =
      net.objection? options := rfl
  unfold solve
  split
  · split
    · rfl
    · rw [objection]
      cases net.objection? options with
      | none => exact between _ _
      | some complaint => rfl
  · rfl

/-- The check accepts exactly those flows whose balances are congruent modulo `2 ^ 64` to what is
    demanded: minus the amount at the source, the amount at the sink and nothing elsewhere. Of any
    other flow it reports the first node where that fails. So it can be fooled by multiples of
    `2 ^ 64`, but not at a node whose arcs carry less than `2 ^ 63` in all. It only reads the
    network: a solve leaves the same one behind with it and without it.

    Words count the nodes, as they do for any table with one entry per node that a memory of 64
    bits can hold. -/
theorem check_compares_remainders (net : Network n) (source sink : Fin n) (amount : Int)
    (counted : (n : Int) ≤ 9223372036854775808)
    (fits : ∀ arc ∈ net.arcs, Word.Fits arc.capacity ∧ Word.Fits arc.cost ∧ Word.Fits arc.flow)
    (receipt : Word.Fits amount) (supply : Word.Fits (-amount)) :
    (net.verifyConservation source.val sink.val amount = ([], .ok ()) ↔
        ∀ v, net.Tallies source sink amount v) ∧
      ((¬ ∀ v, net.Tallies source sink amount v) → ∃ v : Fin n,
        ¬ net.Tallies source sink amount v ∧ (∀ w < v, net.Tallies source sink amount w) ∧
        net.verifyConservation source.val sink.val amount =
          ([.unbalanced v (Word.wrap (net.exactBalance v)) (demand source sink amount v)],
            .error (.state (.unbalanced v))) ∧
        (BadState.unbalanced v).message = "Flow conservation violated at node " ++ toString v.val) ∧
      (∀ v, net.traffic v < 9223372036854775808 →
        (net.Tallies source sink amount v ↔ net.exactBalance v = demand source sink amount v)) ∧
      ∀ options verify,
        (net.solve source.val sink.val { options with verifyConservation := verify }).network =
          (net.solve source.val sink.val options).network := by
  have storable := storable_of_counted counted fits
  refine ⟨?_, ?_, fun v => tallies_iff_of_traffic_lt receipt supply, net.network_solve_checked _ _⟩
  · rcases storable.verifyConservation_cases receipt supply source sink with
      ⟨all, accepted⟩ | ⟨v, off, _, reported⟩
    · exact iff_of_true accepted all
    · rw [reported]
      exact iff_of_false nofun fun all => off (all v)
  · intro off
    rcases storable.verifyConservation_cases receipt supply source sink with
      ⟨all, _⟩ | ⟨v, differs, first, reported⟩
    · exact absurd all off
    · exact ⟨v, differs, first, reported, rfl⟩

theorem check_compares_remainders_wholeSpan :
    wholeSpan.verifyConservation 0 1 0 = ([], .ok ()) ∧
      wholeSpan.exactBalance 1 = 18446744073709551616 ∧
      wholeSpan.verifyConservation 0 1 1 = ([.unbalanced 0 0 (-1)], .error (.state (.unbalanced 0))) := by
  obtain ⟨accepts, _⟩ :=
    check_compares_remainders wholeSpan 0 1 0 (by decide) (by decide) (by decide) (by decide)
  obtain ⟨_, reports, _⟩ :=
    check_compares_remainders wholeSpan 0 1 1 (by decide) (by decide) (by decide) (by decide)
  obtain ⟨v, _, first, reported, _⟩ := reports (by decide)
  have lowest : v = 0 := by
    by_contra other
    exact absurd (first 0 (Fin.pos_of_ne_zero other)) (by decide)
  rw [lowest] at reported
  exact ⟨accepts.mpr (by decide), by decide, reported⟩

end MinCostFlow.Network
