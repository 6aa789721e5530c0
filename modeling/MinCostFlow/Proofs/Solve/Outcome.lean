import MinCostFlow.Proofs.Relaxation.Detection
import MinCostFlow.Proofs.Relaxation.Seed
import MinCostFlow.Proofs.Solve.Ledger
import MinCostFlow.Proofs.Solve.Optimum
import MinCostFlow.Sample.Networks

/-! # What a solve answers

On a network that carries nothing a solve begins in order, whether it starts from zero prices
or from seeded ones. So unless a closed walk of negative cost is in reach, it runs to its end
and answers with a flow that is as large and as cheap as the arcs and the cap allow.
-/

namespace MinCostFlow.Network

open Frontier

variable {n : Nat} {net : Network n} {source sink : Fin n} {options : Options}

theorem size_course (net : Network n) (source : Fin n) (options : Options) :
    (net.course source options).potential.size = n := by
  cases seeds : options.seedPotentials with
  | true => simp [course, seeds]
  | false => simp [course, seeds]

theorem cost_nonneg (none_negative : net.hasNegativeCost = false) {face : Residual n}
    (usable : net.UsableForward face) : 0 ≤ face.cost := by
  obtain ⟨arc, member, _, _, cost⟩ := Relaxation.exists_arc usable
  obtain ⟨inside, isOpen⟩ := mem_openArcs.mp member
  by_contra negative
  have some_negative : net.hasNegativeCost = true := by
    refine List.any_eq_true.mpr ⟨arc, inside, ?_⟩
    simp only [isOpen, true_and, decide_eq_true_eq]
    omega
  rw [none_negative] at some_negative
  simp at some_negative

theorem not_hasNegativeCycle_of_cost_nonneg (none_negative : net.hasNegativeCost = false) :
    ¬ net.HasNegativeCycle := by
  rintro ⟨u, negative⟩
  refine not_negativeCycleAt (Potential.zero n) (fun face usable _ => ?_) negative
  have nonneg := cost_nonneg none_negative usable
  simpa [Residual.reducedCost] using nonneg

namespace Fresh

theorem usable_acyclic (fresh : net.Fresh) (acyclic : ¬ net.HasNegativeCycle) (u : Fin n) :
    ¬ NegativeCycleAt net.Usable u := by
  rw [fresh.usable_eq]
  exact fun negative => acyclic ⟨u, negative⟩

theorem harmless (fresh : net.Fresh) (acyclic : ¬ net.HasNegativeCycle) (u : Fin n) :
    Harmless net u :=
  fun v _ => fresh.usable_acyclic acyclic v

theorem seedable (fresh : net.Fresh) (harmless : Harmless net source)
    (small : (net.liveMagnitude : Int) < horizon) :
    Potential.Seedable net source net.liveMagnitude where
  harmless := by
    rw [← fresh.usable_eq]
    exact harmless
  bounded _ _ walk :=
    (walk.mono fun _ usable => usable.1).natAbs_walkCost_le fresh.withinCapacity
  small := small

theorem sound_of_prices (fresh : net.Fresh)
    (cap : ∀ bound, options.maxFlow = some bound → 0 ≤ bound) {potential : Potential}
    {stopAtSink : Bool} (size : potential.size = n) (anchored : potential.price source = 0)
    (bounded : -(net.liveMagnitude : Int) ≤ potential.price sink)
    (ready : stopAtSink = true → potential.Fair net (Reaches net.Usable source))
    (unready : stopAtSink = false → ∀ v : Fin n, potential.price v = 0) :
    Course.Sound net source sink options.maxFlow { network := net, potential, stopAtSink } where
  same := rfl
  within := fresh.withinCapacity
  agree _ _ found _ := found
  balance v := by simp
  cost := by simp
  nonneg := Int.le_refl 0
  capped := cap
  size := size
  anchored := anchored
  bounded := bounded
  ready := ready
  unready stop := ⟨rfl, unready stop⟩

theorem sound_course_of_unseeded (fresh : net.Fresh) (sink : Fin n)
    (cap : ∀ bound, options.maxFlow = some bound → 0 ≤ bound)
    (unseeded : options.seedPotentials = false) :
    Course.Sound net source sink options.maxFlow (net.course source options) := by
  rw [course, unseeded]
  apply fresh.sound_of_prices cap (Potential.size_zero n) (Potential.price_zero source)
  · rw [Potential.price_zero]
    omega
  · intro none_negative face usable _
    simp only [Bool.false_or, Bool.not_eq_true'] at none_negative
    have nonneg := cost_nonneg none_negative (fresh.usable_eq ▸ usable)
    simpa [Residual.reducedCost] using nonneg
  · exact fun _ => Potential.price_zero

theorem sound_course (fresh : net.Fresh) (harmless : Harmless net source)
    (small : 2 * (net.liveMagnitude : Int) < horizon)
    (cap : ∀ bound, options.maxFlow = some bound → 0 ≤ bound) :
    Course.Sound net source sink options.maxFlow (net.course source options) := by
  cases seeds : options.seedPotentials with
  | true =>
      have seedable := fresh.seedable harmless (by omega)
      have bound := seedable.natAbs_price_le sink
      rw [course, seeds]
      apply fresh.sound_of_prices cap (Potential.size_seed net source) seedable.price_source
      · omega
      · intro _ face usable reached
        rw [fresh.usable_eq] at reached usable
        exact seedable.reducedCost_nonneg usable reached
      · simp
  | false => exact fresh.sound_course_of_unseeded sink cap seeds

end Fresh

theorem solveBudget_eq (net : Network n) (source : Fin n) :
    net.solveBudget source = ((net.out source).map fun face => face.room.toNat).sum + 1 := by
  rw [solveBudget, List.sum_eq_foldl, List.foldl_map]

theorem sum_room_lt_solveBudget (net : Network n) (source : Fin n) :
    ((net.out source).map Residual.room).sum < net.solveBudget source := by
  rw [solveBudget_eq, Nat.cast_succ, Nat.cast_list_sum, List.map_map, Int.lt_add_one_iff]
  exact List.sum_le_sum fun face _ => Int.self_le_toNat face.room

/-- Where no closed walk of negative cost is in reach, the searches of a solve come to an end
    without a fault, and keep what each augmentation keeps. -/
theorem Fresh.pursue_keeps {motive : Course n → Prop} (fresh : net.Fresh) (options : Options)
    (harmless : Harmless net source) (small : 2 * (net.liveMagnitude : Int) < horizon)
    (apart : source ≠ sink) (cap : ∀ bound, options.maxFlow = some bound → 0 ≤ bound)
    (begins : motive (net.course source options))
    (keeps : ∀ course next faces units, Course.Sound net source sink options.maxFlow course →
      motive course →
      Course.Extends (Reaches net.Usable source) source sink options.maxFlow course next faces units →
      motive next) :
    ∃ last, (net.course source options).pursue source sink options.maxFlow (net.solveBudget source) =
        (last, .ok ()) ∧
      Course.Sound net source sink options.maxFlow last ∧ motive last ∧
      Course.Over source sink options.maxFlow last := by
  have room := sum_room_lt_solveBudget net source
  exact Course.Sound.pursue apart harmless small keeps (net.solveBudget source)
    (fresh.sound_course harmless small cap) begins (by simpa [course] using room)

theorem Fresh.exists_last (fresh : net.Fresh) (options : Options) (harmless : Harmless net source)
    (small : 2 * (net.liveMagnitude : Int) < horizon) (apart : source ≠ sink)
    (cap : ∀ bound, options.maxFlow = some bound → 0 ≤ bound) :
    ∃ last, (net.course source options).pursue source sink options.maxFlow (net.solveBudget source) =
        (last, .ok ()) ∧
      Course.Sound net source sink options.maxFlow last ∧
      Course.Over source sink options.maxFlow last := by
  obtain ⟨last, pursued, sound, _, ended⟩ := fresh.pursue_keeps (motive := fun _ => True) options
    harmless small apart cap trivial fun _ _ _ _ _ _ _ => trivial
  exact ⟨last, pursued, sound, ended⟩

theorem solve_eq (net : Network n) (apart : source ≠ sink) (options : Options) :
    net.solve source.val sink.val options =
      match net.objection? options with
      | some (fault, journal) => { network := net, journal, outcome := .error fault }
      | none => net.solveBetween source sink options := by
  have inside : ∀ v : Fin n, (0 : Int) ≤ v.val ∧ (v.val : Int) < n := by
    intro v
    omega
  have front : ∀ v : Fin n, ∀ within : (0 : Int) ≤ v.val ∧ (v.val : Int) < n,
      Position.front within = v := by
    intro v within
    exact Fin.ext (Int.toNat_natCast _)
  have distinct : ¬ ((source.val : Nat) : Int) = sink.val := by
    intro same
    exact apart (Fin.ext (by omega))
  rw [solve, dif_pos ⟨inside source, inside sink⟩, if_neg distinct]
  cases net.objection? options with
  | none =>
      exact congrArg₂ (fun u v => net.solveBetween u v options) (front source _) (front sink _)
  | some complaint => rfl

theorem solve_self (net : Network n) (source : Fin n) (options : Options) :
    net.solve source.val source.val options =
      { network := net, outcome := .ok { flow := 0, cost := 0 } } := by
  have inside : (0 : Int) ≤ source.val ∧ (source.val : Int) < n := by omega
  rw [solve, dif_pos ⟨inside, inside⟩, if_pos rfl]

theorem limit_cases (net : Network n) (options : Options) :
    (∀ bound, options.maxFlow = some bound → 0 ≤ bound) ∨
      net.objection? options = some (.argument .negativeLimit, []) := by
  by_cases negative : options.maxFlow.any (· < 0) = true
  · exact .inr (if_pos negative)
  · refine .inl fun bound given => ?_
    rw [given] at negative
    simpa using negative

theorem cap_of_objection?_eq_none (silent : net.objection? options = none) {bound : Int}
    (given : options.maxFlow = some bound) : 0 ≤ bound := by
  cases net.limit_cases options with
  | inl cap => exact cap bound given
  | inr objects =>
      rw [silent] at objects
      cases objects

theorem objection?_eq (net : Network n) (cap : ∀ bound, options.maxFlow = some bound → 0 ≤ bound)
    (allow : options.allowNegativeCosts = true) :
    (net.objection? options = none ∧
        (options.checkNegativeCycles = true → ¬ net.HasNegativeCycle)) ∨
      (options.checkNegativeCycles = true ∧ net.HasNegativeCycle ∧ ∃ nodes,
        net.objection? options = some (.state (.negativeCycle nodes), [.cycleFound nodes])) := by
  have limit : ¬ options.maxFlow.any (· < 0) = true := by
    intro negative
    cases given : options.maxFlow with
    | none => simp [given] at negative
    | some bound =>
        have nonneg := cap bound given
        simp only [given, Option.any_some, decide_eq_true_eq] at negative
        omega
  rw [objection?, if_neg limit, allow]
  simp only [Bool.not_true, Bool.false_and, Bool.false_eq_true, if_false]
  cases check : options.checkNegativeCycles with
  | false => exact .inl ⟨rfl, by simp⟩
  | true =>
      rcases net.findNegativeCycle_cases with ⟨acyclic, nothing⟩ | ⟨cyclic, cycle, found⟩
      · rw [nothing]
        exact .inl ⟨rfl, fun _ => acyclic⟩
      · rw [found]
        exact .inr ⟨rfl, cyclic, _, rfl⟩

theorem objection?_eq_none (cap : ∀ bound, options.maxFlow = some bound → 0 ≤ bound)
    (allow : options.allowNegativeCosts = true)
    (acyclic : options.checkNegativeCycles = true → ¬ net.HasNegativeCycle) :
    net.objection? options = none := by
  cases objection?_eq net cap allow with
  | inl silent => exact silent.1
  | inr objects => exact absurd objects.2.1 (acyclic objects.1)

/-- A solve whose searches came to their end leaves what they left, and answers unless the
    balances are checked and do not match. -/
theorem solveBetween_of_last {last : Course n}
    (pursued : (net.course source options).pursue source sink options.maxFlow (net.solveBudget source) =
      (last, .ok ())) :
    (net.solveBetween source sink options).network = last.network ∧
      (net.solveBetween source sink options).outcome =
        (if options.verifyConservation then
          (last.network.verifyConservation source.val sink.val last.flow).2 else .ok ()).map
            fun _ => { flow := last.flow, cost := last.cost } := by
  obtain ⟨network, _, outcome⟩ := net.solveBetween_fields source sink options
  rw [pursued] at network outcome
  exact ⟨network, outcome⟩

theorem outcome_of_last {last : Course n}
    (pursued : (net.course source options).pursue source sink options.maxFlow (net.solveBudget source) =
      (last, .ok ())) (unverified : options.verifyConservation = false) :
    (net.solveBetween source sink options).outcome = .ok { flow := last.flow, cost := last.cost } := by
  rw [(solveBetween_of_last pursued).2, unverified]
  rfl

end MinCostFlow.Network

namespace MinCostFlow

open Network Frontier

variable {n : Nat} {net : Network n} {source sink : Fin n} {options : Options}

/-- The run answers with a flow that is as large as the arcs and the cap allow, and with what it
    costs; it leaves that flow on the network, and no flow of the same size costs less. -/
structure Run.Optimal (net : Network n) (source sink : Fin n) (limit : Option Int) (run : Run n)
    (answer : FlowCost) : Prop where
  answered : run.outcome = .ok answer
  same : SameArcs run.network net
  carries : run.network.Carries source sink answer.flow
  largest : ∃ maximum, net.IsMaximum source sink maximum ∧
    answer.flow = limit.elim maximum fun bound => min bound maximum
  cost : answer.cost = run.network.totalCost
  cheapest : run.network.IsCheapest source sink answer.flow

theorem Network.Fresh.solveBetween_optimal (fresh : net.Fresh) (acyclic : ¬ net.HasNegativeCycle)
    (small : 4 * (net.costMagnitude : Int) < horizon) (apart : source ≠ sink)
    (cap : ∀ bound, options.maxFlow = some bound → 0 ≤ bound)
    (unverified : options.verifyConservation = false) :
    ∃ answer, (net.solveBetween source sink options).Optimal net source sink options.maxFlow answer := by
  have live := net.liveMagnitude_le
  have harmless := fresh.usable_acyclic acyclic
  obtain ⟨last, pursued, sound, ended⟩ := fresh.exists_last options (fun u _ => harmless u)
    (by omega) apart cap
  obtain ⟨network, _⟩ := solveBetween_of_last pursued
  obtain ⟨maximum, largest⟩ := fresh.exists_largest source sink
  refine ⟨{ flow := last.flow, cost := last.cost }, ?_⟩
  exact {
    answered := outcome_of_last pursued unverified
    same := network ▸ sound.same
    carries := network ▸ sound.carries fresh apart
    largest := ⟨maximum, largest, ended.flow_eq sound fresh apart largest⟩
    cost := by
      rw [network, sound.cost, fresh.totalCost_eq_zero]
      exact (Int.zero_add _).symm
    cheapest := network ▸ sound.isCheapest fresh apart harmless }

/-- A solve of a network that carries nothing and has no cycle of negative cost answers. What it
    sends is as much as the cap and the arcs allow, and it costs no more than any such flow. -/
theorem Network.solve_optimal (net : Network n) (fresh : net.Fresh)
    (acyclic : ¬ net.HasNegativeCycle) (small : 4 * (net.costMagnitude : Int) < horizon)
    (source sink : Fin n) (apart : source ≠ sink) (options : Options)
    (cap : ∀ bound, options.maxFlow = some bound → 0 ≤ bound)
    (allow : options.allowNegativeCosts = true) (unverified : options.verifyConservation = false) :
    ∃ answer, (net.solve source.val sink.val options).Optimal net source sink options.maxFlow answer := by
  rw [net.solve_eq apart, objection?_eq_none cap allow fun _ => acyclic]
  exact fresh.solveBetween_optimal acyclic small apart cap unverified

/-- From a node to itself nothing is sent, and nothing is cheaper. -/
theorem Network.Fresh.solve_self_optimal (fresh : net.Fresh) (acyclic : ¬ net.HasNegativeCycle)
    (source : Fin n) (cap : ∀ bound, options.maxFlow = some bound → 0 ≤ bound) :
    (net.solve source.val source.val options).Optimal net source source options.maxFlow
      { flow := 0, cost := 0 } := by
  have carries := fresh.carries source source
  have harmless := fresh.usable_acyclic acyclic
  rw [net.solve_self]
  refine ⟨rfl, rfl, carries, ⟨0, ⟨⟨net, rfl, carries⟩, ?_⟩, ?_⟩, fresh.totalCost_eq_zero.symm,
    carries.isCheapest harmless⟩
  · intro other more _ others
    have supplied := others.supplied
    have received := others.received
    omega
  · cases given : options.maxFlow with
    | none => rfl
    | some bound => exact (min_eq_right (cap bound given)).symm

theorem Network.Fresh.exists_optimal (fresh : net.Fresh) (acyclic : ¬ net.HasNegativeCycle)
    (small : 4 * (net.costMagnitude : Int) < horizon) (source sink : Fin n)
    (cap : ∀ bound, options.maxFlow = some bound → 0 ≤ bound)
    (allow : options.allowNegativeCosts = true) (unverified : options.verifyConservation = false) :
    ∃ answer, (net.solve source.val sink.val options).Optimal net source sink options.maxFlow answer := by
  by_cases apart : source = sink
  · subst apart
    exact ⟨_, fresh.solve_self_optimal acyclic source cap⟩
  · rw [net.solve_eq apart, objection?_eq_none cap allow fun _ => acyclic]
    exact fresh.solveBetween_optimal acyclic small apart cap unverified

theorem Network.not_hasNegativeCycle_twoWays : ¬ twoWays.HasNegativeCycle := by
  rintro ⟨u, negative⟩
  refine not_negativeCycleAt #[5, 0, 9, 2] (fun face usable _ => ?_) negative
  have fair : ∀ face ∈ twoWays.residuals, 0 < face.room → 0 ≤ face.reducedCost #[5, 0, 9, 2] := by
    decide
  exact fair face usable.1.1 usable.1.2

theorem Network.solve_optimal_twoWays :
    ∃ answer, (twoWays.solve 0 3 { maxFlow := some 3, seedPotentials := true }).Optimal twoWays 0 3
      (some 3) answer :=
  solve_optimal twoWays (by decide) not_hasNegativeCycle_twoWays (by decide) 0 3 (by decide)
    { maxFlow := some 3, seedPotentials := true } (by
      rintro _ ⟨⟩
      decide) rfl rfl

end MinCostFlow
