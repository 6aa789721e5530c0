import MinCostFlow.Proofs.Search.Drained
import MinCostFlow.Proofs.Solve.Outcome
import MinCostFlow.Sample.Networks

/-! # Solves that meet a cycle of negative cost

From zero prices the first search goes to its end as soon as some open arc pays, so it meets
every closed walk of negative cost that is in reach, and fails before anything is sent. If no
such walk is in reach, no search fails at all. A check before the solve finds such walks
wherever they are.
-/

namespace MinCostFlow.Network

open Frontier

variable {n : Nat} {net : Network n} {source sink : Fin n} {options : Options}

theorem hasNegativeCost_of_not_harmless (fresh : net.Fresh) (harmful : ¬ Harmless net source) :
    net.hasNegativeCost = true := by
  by_contra none_negative
  have fair : (Potential.zero n).Fair net (Reaches net.Usable source) := by
    intro face usable _
    have nonneg := cost_nonneg (Bool.eq_false_iff.mpr none_negative) (fresh.usable_eq ▸ usable)
    simpa [Residual.reducedCost] using nonneg
  exact harmful fair.harmless

theorem Fresh.pursue_fails (fresh : net.Fresh) (sink : Fin n)
    (small : (net.liveMagnitude : Int) < horizon) (unseeded : options.seedPotentials = false) (harmful : ¬ Harmless net source) :
    (net.course source options).pursue source sink options.maxFlow (net.solveBudget source) =
      (net.course source options, .error (.state .endlessPath)) := by
  have drains : (net.course source options).stopAtSink = false := by
    simp [course, unseeded, hasNegativeCost_of_not_harmless fresh harmful]
  have zero : (net.course source options).potential = Potential.zero n := by
    simp [course, unseeded]
  have failed := drain_fails (Potential.size_zero n) (fun faces v walk simple => by
    have bound := walk.natAbs_walkCost_le fresh.withinCapacity simple
    rw [walk.reducedWalkCost_eq, Potential.price_zero, Potential.price_zero]
    omega) harmful
  have advanced : (net.course source options).advance source sink options.maxFlow =
      .error (.state .endlessPath) := by
    rw [Course.advance, Course.discover, drains, zero, search_eq]
    simp only [course, Bool.false_eq_true, if_false, failed]
    rfl
  rw [solveBudget, Course.pursue, advanced]

theorem solveBetween_of_error {last : Course n} {fault : Fault}
    (pursued : (net.course source options).pursue source sink options.maxFlow (net.solveBudget source) =
      (last, .error fault)) :
    (net.solveBetween source sink options).network = last.network ∧
      (net.solveBetween source sink options).outcome = .error fault := by
  obtain ⟨network, _, outcome⟩ := net.solveBetween_fields source sink options
  rw [pursued] at network outcome
  exact ⟨network, outcome⟩

theorem Fresh.harmless_iff (fresh : net.Fresh) :
    Harmless net source ↔
      ¬ ∃ u, Reaches net.UsableForward source u ∧ NegativeCycleAt net.UsableForward u := by
  rw [← fresh.usable_eq, ← not_harmless_iff, not_not]

/-- How a solve of a network that carries nothing ends, if it looks for cycles of negative cost
    first or starts from zero prices. -/
theorem Fresh.solve_cases (fresh : net.Fresh) (small : 2 * (net.liveMagnitude : Int) < horizon)
    (apart : source ≠ sink) (options : Options)
    (cap : ∀ bound, options.maxFlow = some bound → 0 ≤ bound)
    (allow : options.allowNegativeCosts = true) (unverified : options.verifyConservation = false)
    (mode : options.checkNegativeCycles = true ∨ options.seedPotentials = false) :
    (options.checkNegativeCycles = true ∧ net.HasNegativeCycle ∨
        options.checkNegativeCycles = false ∧ ¬ Harmless net source) ∧
      (net.solve source.val sink.val options).network = net ∧
      (∃ cause, (net.solve source.val sink.val options).outcome = .error (.state cause)) ∨
    (options.checkNegativeCycles = true → ¬ net.HasNegativeCycle) ∧ Harmless net source ∧
      ∃ answer, (net.solve source.val sink.val options).outcome = .ok answer := by
  rw [net.solve_eq apart]
  rcases objection?_eq net cap allow with ⟨silent, acyclic⟩ | ⟨check, cyclic, nodes, objects⟩
  · rw [silent]
    dsimp only
    by_cases harmless : Harmless net source
    · right
      obtain ⟨last, pursued, _, _⟩ := fresh.exists_last options harmless small apart cap
      exact ⟨acyclic, harmless, _, outcome_of_last pursued unverified⟩
    · left
      cases check : options.checkNegativeCycles with
      | true =>
          refine absurd (fun u _ negative => acyclic check ⟨u, ?_⟩) harmless
          rwa [fresh.usable_eq] at negative
      | false =>
          have unseeded := mode.resolve_left (by simp [check])
          obtain ⟨network, outcome⟩ := solveBetween_of_error
            (fresh.pursue_fails sink (by omega) unseeded harmless)
          exact ⟨.inr ⟨rfl, harmless⟩, network, _, outcome⟩
  · rw [objects]
    exact .inl ⟨.inl ⟨check, cyclic⟩, rfl, _, rfl⟩

/-- A solve that looks for cycles of negative cost first fails with a bad state exactly when
    there is one. A solve from zero prices that does not look does so exactly when one is in
    reach of the source. Either kind of solve answers or fails with a bad state, and if it
    fails it has sent nothing. -/
theorem solve_reports_negative_cycles (net : Network n) (fresh : net.Fresh)
    (small : 4 * (net.costMagnitude : Int) < horizon) (source sink : Fin n) (apart : source ≠ sink)
    (options : Options) (cap : ∀ bound, options.maxFlow = some bound → 0 ≤ bound)
    (allow : options.allowNegativeCosts = true) (unverified : options.verifyConservation = false) :
    (options.checkNegativeCycles = true →
      ((∃ cause, (net.solve source.val sink.val options).outcome = .error (.state cause)) ↔
        net.HasNegativeCycle)) ∧
    (options.checkNegativeCycles = false → options.seedPotentials = false →
      ((∃ cause, (net.solve source.val sink.val options).outcome = .error (.state cause)) ↔
        ∃ u, Reaches net.UsableForward source u ∧ NegativeCycleAt net.UsableForward u)) ∧
    (options.checkNegativeCycles = true ∨ options.seedPotentials = false →
      (∃ answer, (net.solve source.val sink.val options).outcome = .ok answer) ∨
        (∃ cause, (net.solve source.val sink.val options).outcome = .error (.state cause)) ∧
          (net.solve source.val sink.val options).network = net) := by
  have live := net.liveMagnitude_le
  have ends := fresh.solve_cases (by omega) apart options cap allow unverified
  have exclusive : ∀ {answer cause}, (net.solve source.val sink.val options).outcome = .ok answer →
      (net.solve source.val sink.val options).outcome ≠ .error (.state cause) := by
    intro answer cause answered failed
    rw [answered] at failed
    simp at failed
  refine ⟨fun check => ?_, fun unchecked unseeded => ?_, fun mode => ?_⟩
  · rcases ends (.inl check) with ⟨why, _, fails⟩ | ⟨acyclic, _, _, answered⟩
    · cases why with
      | inl cyclic => exact iff_of_true fails cyclic.2
      | inr harmful => simp [check] at harmful
    · exact iff_of_false (fun ⟨_, failed⟩ => exclusive answered failed) (acyclic check)
  · rw [← not_iff_not, ← fresh.harmless_iff]
    rcases ends (.inr unseeded) with ⟨why, _, fails⟩ | ⟨_, harmless, _, answered⟩
    · cases why with
      | inl cyclic => simp [unchecked] at cyclic
      | inr harmful => exact iff_of_false (fun none_fails => none_fails fails) harmful.2
    · exact iff_of_true (fun ⟨_, failed⟩ => exclusive answered failed) harmless
  · rcases ends mode with ⟨_, unchanged, fails⟩ | ⟨_, _, answered⟩
    · exact .inr ⟨fails, unchanged⟩
    · exact .inl answered

theorem negativeCycleAt_payingLoop :
    Reaches payingLoop.UsableForward 0 1 ∧ NegativeCycleAt payingLoop.UsableForward 1 := by
  let way : Arc 2 := { tail := 0, head := 1, capacity := 1, cost := 0 }
  let loop : Arc 2 := { tail := 1, head := 1, capacity := 1, cost := -1 }
  have there : payingLoop.arcs[0]? = some way := rfl
  have around : payingLoop.arcs[1]? = some loop := rfl
  constructor
  · exact ⟨[way.along 0], .single ((usableForward_along_iff there).mpr (by decide))⟩
  · exact ⟨[loop.along 1], .single ((usableForward_along_iff around).mpr (by decide)), by decide⟩

theorem solve_reports_negative_cycles_payingLoop :
    (∃ cause, (payingLoop.solve 0 1 { checkNegativeCycles := true }).outcome = .error (.state cause)) ∧
      ∃ cause, (payingLoop.solve 0 1).outcome = .error (.state cause) := by
  have checked := solve_reports_negative_cycles payingLoop (by decide) (by decide) 0 1 (by decide)
    { checkNegativeCycles := true } (fun _ given => by simp at given) rfl rfl
  have unchecked := solve_reports_negative_cycles payingLoop (by decide) (by decide) 0 1 (by decide)
    {} (fun _ given => by simp at given) rfl rfl
  have cycle := negativeCycleAt_payingLoop
  exact ⟨(checked.1 rfl).mpr ⟨1, cycle.2⟩, (unchecked.2.1 rfl rfl).mpr ⟨1, cycle⟩⟩

end MinCostFlow.Network
