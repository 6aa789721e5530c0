import MinCostFlow.Proofs.Solve.Outcome

/-! # Solving once more

A solve without a cap leaves a network in which the sink is cut off and no closed walk costs less
than nothing, although twins with negative costs may now be usable and the prices of a new solve
know nothing of them. A search over such a network neither fails nor finds anything, whatever
prices it starts from. So to solve again is to change nothing.
-/

namespace MinCostFlow

open Network Frontier

variable {n : Nat}

namespace Course

variable {course : Course n} {source sink : Fin n}

theorem discover_of_cutOff (size : course.potential.size = n)
    (harmless : Harmless course.network source)
    (stuck : ¬ Reaches course.network.Usable source sink) :
    course.discover source sink = .ok none := by
  obtain ⟨last, stopped, way, searched, finished⟩ :=
    search_finished size harmless sink course.stopAtSink
  apply discover_of_unlabelled searched finished
  intro labelled
  exact stuck ⟨way sink, finished.traced.walk sink labelled⟩

theorem pursue_of_cutOff (size : course.potential.size = n)
    (harmless : Harmless course.network source)
    (stuck : ¬ Reaches course.network.Usable source sink) (limit : Option Int) (budget : Nat) :
    course.pursue source sink limit (budget + 1) = (course, .ok ()) := by
  rw [pursue, advance_of_missed (discover_of_cutOff size harmless stuck)]

end Course

namespace Network

variable {net : Network n} {source sink : Fin n} {options : Options}

theorem not_hasNegativeCycle_of_usable (harmless : ∀ u, ¬ NegativeCycleAt net.Usable u) :
    ¬ net.HasNegativeCycle := by
  rintro ⟨u, faces, walk, negative⟩
  exact harmless u ⟨faces, walk.mono fun _ usable => usable.1, negative⟩

theorem solve_of_cutOff (apart : source ≠ sink)
    (cap : ∀ bound, options.maxFlow = some bound → 0 ≤ bound)
    (allow : options.allowNegativeCosts = true) (unverified : options.verifyConservation = false)
    (harmless : ∀ u, ¬ NegativeCycleAt net.Usable u) (stuck : ¬ Reaches net.Usable source sink) :
    (net.solve source.val sink.val options).outcome = .ok { flow := 0, cost := 0 } ∧
      (net.solve source.val sink.val options).network = net := by
  have silent := objection?_eq_none cap allow fun _ => not_hasNegativeCycle_of_usable harmless
  have pursued : (net.course source options).pursue source sink options.maxFlow
      (net.solveBudget source) = (net.course source options, .ok ()) :=
    Course.pursue_of_cutOff (net.size_course source options) (fun u _ => harmless u) stuck _ _
  rw [net.solve_eq apart, silent]
  exact ⟨outcome_of_last pursued unverified, (solveBetween_of_last pursued).1⟩

/-- A solve without a cap uses up all paths and brings no closed walk of negative cost about. -/
theorem Fresh.solve_exhausts (fresh : net.Fresh) (acyclic : ¬ net.HasNegativeCycle)
    (small : 2 * (net.liveMagnitude : Int) < horizon) (apart : source ≠ sink)
    (uncapped : options.maxFlow = none) (allow : options.allowNegativeCosts = true) :
    let solved := (net.solve source.val sink.val options).network
    (∀ u, ¬ NegativeCycleAt solved.Usable u) ∧ ¬ Reaches solved.Usable source sink := by
  have cap : ∀ bound, options.maxFlow = some bound → 0 ≤ bound := by
    intro bound given
    rw [uncapped] at given
    cases given
  have harmless := fresh.usable_acyclic acyclic
  obtain ⟨last, pursued, sound, ended⟩ :=
    fresh.exists_last options (fun u _ => harmless u) small apart cap
  have stuck : ¬ Reaches last.network.Usable source sink := by
    cases ended with
    | inl stuck => exact stuck
    | inr met =>
        rw [uncapped] at met
        cases met
  rw [net.solve_eq apart, objection?_eq_none cap allow fun _ => acyclic]
  dsimp only
  rw [(solveBetween_of_last pursued).1]
  exact ⟨sound.not_negativeCycleAt harmless, stuck⟩

/-- After a solve without a cap, another solve between the same terminals answers that nothing
    flows and costs nothing, and it leaves every arc as it is, whatever its cap, wherever its
    prices start, and whether or not it looks for cycles of negative cost first. -/
theorem solve_again_changes_nothing (net : Network n) (fresh : net.Fresh)
    (acyclic : ¬ net.HasNegativeCycle) (small : 4 * (net.costMagnitude : Int) < horizon)
    (source sink : Fin n) (apart : source ≠ sink) (first again : Options)
    (uncapped : first.maxFlow = none) (allow : first.allowNegativeCosts = true)
    (cap : ∀ bound, again.maxFlow = some bound → 0 ≤ bound)
    (allows : again.allowNegativeCosts = true) (unverified : again.verifyConservation = false) :
    let solved := (net.solve source.val sink.val first).network
    (solved.solve source.val sink.val again).outcome = .ok { flow := 0, cost := 0 } ∧
      (solved.solve source.val sink.val again).network = solved := by
  have live := net.liveMagnitude_le
  obtain ⟨harmless, stuck⟩ := fresh.solve_exhausts acyclic (by omega) apart uncapped allow
  exact solve_of_cutOff apart cap allows unverified harmless stuck

theorem solve_again_changes_nothing_twoWays :
    let solved := (twoWays.solve 0 3).network
    solved ≠ twoWays ∧
      (solved.solve 0 3 { maxFlow := some 1, seedPotentials := true }).outcome =
        .ok { flow := 0, cost := 0 } ∧
      (solved.solve 0 3 { maxFlow := some 1, seedPotentials := true }).network = solved :=
  ⟨by decide +kernel,
    solve_again_changes_nothing twoWays (by decide) not_hasNegativeCycle_twoWays (by decide) 0 3
      (by decide) {} { maxFlow := some 1, seedPotentials := true } rfl rfl
      (by rintro _ ⟨⟩; decide) rfl rfl⟩

end Network

end MinCostFlow
