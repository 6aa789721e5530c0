import MinCostFlow.Proofs.Flow.Marginal
import MinCostFlow.Proofs.Solve.Outcome
import MinCostFlow.Sample.Networks

/-! # What lies beyond the horizon

A distance at the horizon reads as not reached. Distances are reduced costs, and after a search the
prices have taken up what the path of that search cost; so a search gives the sink up only when
every path costs at least a horizon more than the last one did. Where no arc pays, a solve therefore
sends unit after unit, however much each of them costs, up to the first leap of the unit costs.
-/

namespace MinCostFlow

open Network Frontier

variable {n : Nat}

/-- No usable face undercuts the prices. -/
abbrev Potential.FairEverywhere (potential : Potential) (net : Network n) : Prop :=
  potential.Fair net fun _ => True

/-- Where a search to the end has not found the sink, all its distances can be taken for prices, and
    then the sink is a horizon dearer than before. -/
theorem Frontier.Finished.exists_beyond {net : Network n} {potential : Potential} {goal : Option Int}
    {source sink : Fin n} {way : Fin n → List (Residual n)} {last : Frontier n}
    (finished : Finished net potential goal source way false last)
    (unlabelled : ¬ last.dist sink < horizon) (fair : potential.FairEverywhere net) :
    ∃ raised : Potential, raised.FairEverywhere net ∧
      raised.price source = potential.price source ∧
      raised.price sink = potential.price sink + horizon := by
  have ceiling := finished.tidy.ceiling
  refine ⟨Array.ofFn fun v => potential.price v + last.dist v, fun face usable _ => ?_, ?_, ?_⟩
  · have nonneg := fair face usable trivial
    have onward : last.dist face.head ≤ last.dist face.tail + face.reducedCost potential := by
      by_cases labelled : last.dist face.tail < horizon
      · cases finished.tidy.looked face.tail id labelled with
        | inl waits => exact absurd waits (finished.drained rfl face.tail)
        | inr done => exact done face usable rfl
      · have near := ceiling face.head
        omega
    rw [Residual.reducedCost] at onward ⊢
    rw [price_ofFn, price_ofFn]
    omega
  · rw [price_ofFn, finished.dist_source, Int.add_zero]
  · have at_horizon : last.dist sink = horizon := Int.le_antisymm (ceiling sink) (Int.not_lt.mp unlabelled)
    rw [price_ofFn, at_horizon]

namespace Course

variable {start : Network n} {source sink : Fin n} {course next : Course n}
  {faces : List (Residual n)} {units : Int}

/-- How a solve without a cap stands between two searches where no arc pays: its prices are fair
    everywhere, the price of the sink is what the last unit cost, and no unit so far was a leap. -/
structure Steady (start : Network n) (source sink : Fin n) (course : Course n) : Prop where
  stop : course.stopAtSink = true
  fair : course.potential.FairEverywhere course.network
  priced : ∃ count : Nat, course.flow = count ∧
    start.UnitCost source sink count (course.potential.price sink)
  level : ∀ count : Nat, count < course.flow → ¬ start.Leap source sink count

/-- All the units that an augmentation sends are as cheap as they can be. -/
theorem Sound.leastCost_add (sound : Sound start source sink none course) (fresh : start.Fresh)
    (apart : source ≠ sink)
    (step : Extends (fun _ => True) source sink none course next faces units) {amount : Int}
    (nonneg : 0 ≤ amount) (le : amount ≤ units) :
    start.LeastCost source sink (course.flow + amount) (course.cost + amount * walkCost faces) := by
  have carries := (sound.carries fresh apart).pushEach step.walk step.simple apart nonneg
    fun face member => le.trans (step.units_le.trans (leastRoom_le member))
  have fair := step.fair.pushEach step.tight step.separate nonneg
  have cost : (course.network.pushEach faces amount).totalCost =
      course.cost + amount * walkCost faces := by
    rw [step.separate.totalCost_pushEach, sound.cost, fresh.totalCost_eq_zero, Int.zero_add]
  rw [← cost]
  exact leastCost_of_fair ((sameArcs_pushEach _ _ _).trans sound.same) carries apart
    fun face usable => fair face usable trivial

theorem Sound.unitCost_add (sound : Sound start source sink none course) (fresh : start.Fresh)
    (apart : source ≠ sink)
    (step : Extends (fun _ => True) source sink none course next faces units) {count extra : Nat}
    (flow : course.flow = count) (lt : extra < units) :
    start.UnitCost source sink (count + extra + 1) (walkCost faces) := by
  have fits : ((extra + 1 : Nat) : Int) ≤ units := by omega
  have before := sound.leastCost_add fresh apart step (Int.natCast_nonneg extra) (Int.le_of_lt lt)
  have after := sound.leastCost_add fresh apart step (Int.natCast_nonneg (extra + 1)) fits
  rw [flow, ← Int.natCast_add] at before after
  refine ⟨_, _, before, after, ?_⟩
  push_cast
  ring

theorem Steady.extends (steady : Steady start source sink course)
    (sound : Sound start source sink none course) (fresh : start.Fresh) (apart : source ≠ sink)
    (step : Extends (fun _ => True) source sink none course next faces units)
    (near : reducedWalkCost course.potential faces < horizon) : Steady start source sink next := by
  obtain ⟨count, flow, priced⟩ := steady.priced
  have positive := step.positive
  have later := step.flow
  have cost : walkCost faces = next.potential.price sink := by
    rw [step.walkCost_eq, step.anchored, sound.anchored, Int.sub_zero]
  have unit : ∀ extra : Nat, extra < units →
      start.UnitCost source sink (count + extra + 1) (walkCost faces) :=
    fun extra => sound.unitCost_add fresh apart step flow
  rw [step.walk.reducedWalkCost_eq, sound.anchored] at near
  refine ⟨step.stop, step.fair_next, ⟨count + units.toNat, by omega, ?_⟩, fun place below leap => ?_⟩
  · have last := unit (units.toNat - 1) (by omega)
    rw [cost] at last
    have same : count + (units.toNat - 1) + 1 = count + units.toNat := by omega
    rwa [same] at last
  · by_cases old : (place : Int) < course.flow
    · exact steady.level place old leap
    · obtain ⟨extra, rfl⟩ := Nat.exists_eq_add_of_le (show count ≤ place by omega)
      have above := unit extra (by omega)
      cases extra with
      | zero => exact not_leap priced above (by omega) leap
      | succ extra => exact not_leap (unit extra (by omega)) above (Int.lt_add_of_pos_right _ (by decide)) leap

/-- Nothing more can be sent, or the next unit would be a leap. -/
def Exhausted (start : Network n) (source sink : Fin n) (course : Course n) : Prop :=
  ¬ Reaches course.network.Usable source sink ∨
    ∃ count : Nat, course.flow = count ∧ start.Leap source sink count

/-- If there is a path but no search can see it, the next unit is a leap. -/
theorem Steady.leap (steady : Steady start source sink course)
    (sound : Sound start source sink none course) (fresh : start.Fresh) (apart : source ≠ sink)
    {raised : Potential} (fair : raised.FairEverywhere course.network)
    (anchored : raised.price source = course.potential.price source)
    (far : raised.price sink = course.potential.price sink + horizon)
    (reached : Reaches course.network.Usable source sink) :
    ∃ count : Nat, course.flow = count ∧ start.Leap source sink count := by
  obtain ⟨count, flow, priced⟩ := steady.priced
  have carries := sound.carries fresh apart
  have cost : course.network.totalCost = course.cost := by
    rw [sound.cost, fresh.totalCost_eq_zero, Int.zero_add]
  have current := leastCost_of_fair sound.same carries apart
    fun face usable => steady.fair face usable trivial
  have lower : ∀ other, SameArcs other start → other.Carries source sink (course.flow + 1) →
      course.cost + (course.potential.price sink + horizon) ≤ other.totalCost := by
    intro other same others
    have bound := carries.totalCost_add_le others (same.trans sound.same.symm) apart
      fun face usable => fair face usable trivial
    rwa [cost, anchored, far, sound.anchored, Int.sub_zero, add_sub_cancel_left, Int.one_mul] at bound
  obtain ⟨_, walk⟩ := reached
  obtain ⟨short, walk, simple, _⟩ := walk.exists_simple
  have more := carries.pushEach walk simple apart (by decide : (0 : Int) ≤ 1)
    fun face member => (walk.allowed_of_mem member).2
  obtain ⟨next, least, bound⟩ :=
    exists_leastCost ((sameArcs_pushEach _ _ _).trans sound.same) more lower
  rw [cost, flow] at current
  rw [flow, ← Int.natCast_succ] at least
  exact ⟨count, flow, _, _, priced, ⟨course.cost, next, current, least, rfl⟩, by omega⟩

/-- A step of a steady solve does not fail, and it ends only where nothing more can be sent or the
    next unit would be a leap. -/
theorem Steady.steps (steady : Steady start source sink course)
    (sound : Sound start source sink none course) (harmless : Harmless start source)
    (fresh : start.Fresh) (apart : source ≠ sink) :
    (course.advance source sink none = .ok none ∧ Exhausted start source sink course) ∨
      ∃ next faces units, course.advance source sink none = .ok (some next) ∧
        Extends (Reaches start.Usable source) source sink none course next faces units ∧
        Steady start source sink next := by
  obtain ⟨last, stopped, way, searched, finished⟩ := sound.exists_finished harmless
  by_cases labelled : last.dist sink < horizon
  · right
    rcases sound.advance_of_labelled searched finished labelled trivial (fun _ _ _ => trivial)
      (fun _ => steady.fair) (by simp [steady.stop]) with ⟨met, _⟩ | ⟨next, units, advanced, step⟩
    · cases met
    · refine ⟨next, way sink, units, advanced, ?_, ?_⟩
      · exact { step with fair := fun face usable _ => step.fair face usable trivial }
      · exact steady.extends sound fresh apart step (finished.traced.dist_eq labelled ▸ labelled)
  · left
    refine ⟨advance_of_unlabelled searched finished labelled, ?_⟩
    obtain rfl : stopped = false := by simpa [labelled] using finished.stopped_eq
    obtain ⟨raised, fair, anchored, far⟩ := finished.exists_beyond labelled steady.fair
    by_cases reached : Reaches course.network.Usable source sink
    · exact .inr (steady.leap sound fresh apart fair anchored far reached)
    · exact .inl reached

theorem steady_course (fresh : start.Fresh) (none_negative : start.hasNegativeCost = false) :
    Steady start source sink (start.course source {}) where
  stop := by simp [course, none_negative]
  fair face usable _ := by
    have nonneg := cost_nonneg none_negative (fresh.usable_eq ▸ usable)
    simpa [course, Residual.reducedCost] using nonneg
  priced := ⟨0, rfl, Potential.price_zero sink⟩
  level count below := by
    simp only [course] at below
    omega

end Course

namespace Network

variable {net : Network n} {source sink : Fin n}

theorem hasNegativeCost_eq_false (nonneg : ∀ arc ∈ net.arcs, 0 ≤ arc.cost) :
    net.hasNegativeCost = false := by
  refine List.any_eq_false.mpr fun arc member => ?_
  have cost := nonneg arc member
  simp only [decide_eq_true_eq, not_and]
  omega

/-- Where no arc pays, a solve answers with a flow that is as cheap as any of its size, and it is
    as large as the arcs allow exactly if the unit costs make no leap, whatever they are. If they
    make one, the solve stops at the first. -/
theorem solve_stops_at_leap (net : Network n) (fresh : net.Fresh)
    (nonneg : ∀ arc ∈ net.arcs, 0 ≤ arc.cost) (source sink : Fin n) (apart : source ≠ sink) :
    ∃ answer, (net.solve source.val sink.val).outcome = .ok answer ∧
      SameArcs (net.solve source.val sink.val).network net ∧
      (net.solve source.val sink.val).network.Carries source sink answer.flow ∧
      (net.solve source.val sink.val).network.totalCost = answer.cost ∧
      net.LeastCost source sink answer.flow answer.cost ∧
      (net.IsMaximum source sink answer.flow ↔ ∀ count, ¬ net.Leap source sink count) ∧
      (∀ count : Nat, count < answer.flow → ¬ net.Leap source sink count) ∧
      (net.IsMaximum source sink answer.flow ∨
        ∃ count : Nat, answer.flow = count ∧ net.Leap source sink count) := by
  have none_negative := hasNegativeCost_eq_false nonneg
  have acyclic := not_hasNegativeCycle_of_cost_nonneg none_negative
  have harmless := fresh.harmless acyclic source
  have uncapped : ∀ bound, ({} : Options).maxFlow = some bound → 0 ≤ bound := by
    intro bound given
    cases given
  have room := net.sum_room_lt_solveBudget source
  obtain ⟨last, pursued, sound, steady, ended⟩ :=
    Course.Sound.pursue_of_steps apart
      (fun _ sound steady => Course.Steady.steps steady sound harmless fresh apart)
      (net.solveBudget source)
      (fresh.sound_course_of_unseeded sink uncapped rfl)
      (Course.steady_course fresh none_negative) (by simpa [course] using room)
  obtain ⟨network, outcome⟩ := solveBetween_of_last pursued
  have carries := sound.carries fresh apart
  have cost : last.network.totalCost = last.cost := by
    rw [sound.cost, fresh.totalCost_eq_zero, Int.zero_add]
  have least := leastCost_of_fair sound.same carries apart
    fun face usable => steady.fair face usable trivial
  have ends : net.IsMaximum source sink last.flow ∨
      ∃ count : Nat, last.flow = count ∧ net.Leap source sink count := by
    cases ended with
    | inl stuck =>
        left
        refine ⟨⟨last.network, sound.same, carries⟩, fun other more same others => ?_⟩
        exact value_le_of_not_reaches carries stuck (same.trans sound.same.symm) others
    | inr leap => exact .inr leap
  have below : net.IsMaximum source sink last.flow → ∀ count, ¬ net.Leap source sink count := by
    intro largest count leap
    by_cases early : (count : Int) < last.flow
    · exact steady.level count early leap
    · obtain ⟨_, _, _, ⟨_, _, _, ⟨other, same, others, _⟩, _⟩, _⟩ := leap
      have bound := largest.2 other _ same others
      omega
  rw [net.solve_eq apart, objection?_eq_none uncapped rfl fun _ => acyclic]
  refine ⟨{ flow := last.flow, cost := last.cost }, outcome, ?_⟩
  dsimp only
  rw [network]
  refine ⟨sound.same, carries, cost, cost ▸ least, ⟨below, fun level => ?_⟩, steady.level, ends⟩
  cases ends with
  | inl largest => exact largest
  | inr leap =>
      obtain ⟨count, _, leap⟩ := leap
      exact absurd leap (level count)

theorem isMaximum_halfHorizons : halfHorizons.IsMaximum 0 2 1 := by
  constructor
  · refine ⟨{ arcs := halfHorizons.arcs.map fun arc => { arc with flow := 1 } }, rfl, ?_⟩
    exact {
      within := by unfold WithinCapacity; decide
      supplied := by decide
      received := by decide
      kept := by decide }
  · intro other more same carries
    have bound := carries.value_le_capacityOut
    rw [capacityOut_eq_of_sameArcs same] at bound
    exact bound.trans (by decide)

theorem solve_stops_at_leap_halfHorizons :
    (halfHorizons.solve 0 2).outcome = .ok { flow := 0, cost := 0 } ∧ halfHorizons.Leap 0 2 0 := by
  have answers : (halfHorizons.solve 0 2).outcome = .ok { flow := 0, cost := 0 } := by
    decide +kernel
  obtain ⟨answer, answered, _, _, _, _, _, _, ends⟩ :=
    solve_stops_at_leap halfHorizons (by decide) (by decide) 0 2 (by decide)
  rw [show halfHorizons.solve (0 : Fin 3).val (2 : Fin 3).val = halfHorizons.solve 0 2 from rfl,
    answers] at answered
  cases answered
  refine ⟨answers, ?_⟩
  rcases ends with largest | ⟨count, none_sent, leap⟩
  · obtain ⟨other, same, carries⟩ := isMaximum_halfHorizons.1
    exact absurd (largest.2 other 1 same carries) (by decide)
  · cases count with
    | zero => exact leap
    | succ count =>
        dsimp only at none_sent
        omega

/-- A unit could be sent over two arcs that together cost a horizon, and a solve sends none. -/
theorem costs_hide_flow_halfHorizons :
    halfHorizons.Fresh ∧ (∀ arc ∈ halfHorizons.arcs, 0 ≤ arc.cost ∧ arc.cost < horizon) ∧
      halfHorizons.IsMaximum 0 2 1 ∧
      (halfHorizons.solve 0 2).outcome = .ok { flow := 0, cost := 0 } :=
  ⟨by decide, by decide, isMaximum_halfHorizons, by decide +kernel⟩

end Network

end MinCostFlow
