import MinCostFlow.Proofs.Search.Drained
import MinCostFlow.Proofs.Search.Route

/-! # Prices raised by a search

A search that reaches the sink raises the price of each node by its distance, and by no more
than the distance of the sink if it stopped there. Under the new prices no usable face costs
less than nothing, and the faces of the route cost nothing at all, so that the faces which
appear when flow is sent along the route cost nothing either.
-/

namespace MinCostFlow

variable {n : Nat}

/-- No usable face that leaves the region undercuts the prices. -/
def Potential.Fair (potential : Potential) (net : Network n) (region : Fin n → Prop) : Prop :=
  ∀ face, net.Usable face → region face.tail → 0 ≤ face.reducedCost potential

namespace Potential.Fair

variable {net : Network n} {potential : Potential} {region wider : Fin n → Prop} {source : Fin n}

theorem mono (fair : potential.Fair net wider) (le : ∀ v, region v → wider v) :
    potential.Fair net region :=
  fun face usable inside => fair face usable (le face.tail inside)

theorem harmless (fair : potential.Fair net (Network.Reaches net.Usable source)) :
    Frontier.Harmless net source := by
  intro u reached
  apply Network.not_negativeCycleAt potential
  intro face usable onward
  exact fair face usable (reached.trans onward)

end Potential.Fair

namespace Frontier

variable {net : Network n} {potential : Potential} {goal : Option Int} {source sink : Fin n}
  {frontier : Frontier n} {way : Fin n → List (Residual n)} {stopped : Bool}

def gain (stopped : Bool) (sink : Fin n) (frontier : Frontier n) (v : Fin n) : Int :=
  if stopped then min (frontier.dist v) (frontier.dist sink)
  else if frontier.dist v < horizon then frontier.dist v else 0

theorem price_lift {prices : PerNode Label n} (size : potential.size = n) (limit : Option Int)
    (v : Fin n) :
    Potential.price (potential.mapIdx fun v price =>
      price + (((prices.toArray.map Label.dist).map (Potential.rise limit))[v]?.join).getD 0) v =
      potential.price v + (Potential.rise limit (prices.entry v).dist).getD 0 := by
  have bound : v.val < potential.size := by omega
  simp [Potential.price, bound, PerNode.entry, Vector.get]

theorem gain_eq_getD_rise (stopped : Bool) (sink : Fin n) (frontier : Frontier n) (v : Fin n) :
    gain stopped sink frontier v =
      (Potential.rise (if stopped then some (frontier.dist sink) else none) (frontier.dist v)).getD 0 := by
  cases stopped with
  | true => rfl
  | false =>
      by_cases near : frontier.dist v < horizon
      · simp [gain, Potential.rise, near]
      · simp [gain, Potential.rise, near]

theorem raise_eq (size : potential.size = n) (stopped : Bool) (sink : Fin n) (frontier : Frontier n) :
    ∃ raised,
      potential.raise (Network.reachOf sink stopped frontier).dist sink.val stopped = .ok raised ∧
        raised.size = n ∧
        ∀ v : Fin n, raised.price v = potential.price v + gain stopped sink frontier v := by
  have enough (limit : Option Int) : ((frontier.labels.toArray.map Label.dist).map
      (Potential.rise limit)).size ≤ potential.size := by
    simp [size]
  have lifted : ∀ limit, limit = (if stopped then some (frontier.dist sink) else none) →
      ∃ raised, potential.lift ((frontier.labels.toArray.map Label.dist).map (Potential.rise limit)) =
          .ok raised ∧ raised.size = n ∧
        ∀ v : Fin n, raised.price v = potential.price v + gain stopped sink frontier v := by
    intro limit same
    refine ⟨_, Potential.lift_of_size_le (enough limit), by simp [size], fun v => ?_⟩
    rw [gain_eq_getD_rise, ← same]
    exact price_lift size limit v
  cases stopped with
  | true =>
      rw [Potential.raise, Reach.dist, Reach.column, Network.reachOf, entry_column]
      exact lifted _ rfl
  | false => exact lifted none rfl

namespace Finished

theorem source_labelled (finished : Finished net potential goal source way stopped frontier) :
    frontier.dist source < horizon :=
  Int.lt_of_le_of_lt finished.tidy.origin (by decide)

theorem dist_source (finished : Finished net potential goal source way stopped frontier) :
    frontier.dist source = 0 := by
  have labelled := finished.source_labelled
  have closed := (finished.traced.walk source labelled).eq_nil_of_closed
    (finished.traced.simple source labelled)
  rw [finished.traced.dist_eq labelled, closed]
  rfl

theorem gain_head_le_of_drained (sink : Fin n)
    (finished : Finished net potential goal source way false frontier) {face : Residual n}
    (usable : net.Usable face) (labelled : frontier.dist face.tail < horizon) :
    gain false sink frontier face.head ≤
      gain false sink frontier face.tail + face.reducedCost potential := by
  cases finished.tidy.looked face.tail id labelled with
  | inl waits => exact absurd waits (finished.drained rfl face.tail)
  | inr done =>
      have step := done face usable rfl
      have far : (0 : Int) < horizon := by decide
      simp only [gain, Bool.false_eq_true, if_false, if_pos labelled]
      split <;> omega

theorem gain_head_le_of_stopped
    (finished : Finished net potential (some (sink.val : Int)) source way true frontier)
    {face : Residual n} (usable : net.Usable face) (fair : 0 ≤ face.reducedCost potential) :
    gain true sink frontier face.head ≤
      gain true sink frontier face.tail + face.reducedCost potential := by
  have labelled := finished.stopped_iff.mpr rfl
  simp only [gain, if_true]
  by_cases nearer : frontier.dist face.tail < frontier.dist sink
  · cases finished.tidy.looked face.tail id (by omega) with
    | inl waits =>
        have least := (finished.first_of_waits true waits).2
        omega
    | inr done =>
        have step := done face usable rfl
        omega
  · omega

theorem stopped_eq {stopAtSink : Bool}
    (finished : Finished net potential (if stopAtSink then some (sink.val : Int) else none) source way
      stopped frontier) : stopped = (stopAtSink && decide (frontier.dist sink < horizon)) := by
  cases stopAtSink with
  | true =>
      have iff := finished.stopped_iff
      by_cases labelled : frontier.dist sink < horizon <;> cases stopped <;> simp_all
  | false =>
      cases stopped with
      | false => rfl
      | true =>
          obtain ⟨_, aim, _⟩ := finished.stops rfl
          simp at aim

theorem gain_head_eq {stopAtSink : Bool}
    (finished : Finished net potential (if stopAtSink then some (sink.val : Int) else none) source way
      stopped frontier) (labelled : frontier.dist sink < horizon)
    (fair : stopped = true → ∀ face ∈ way sink, 0 ≤ face.reducedCost potential) {face : Residual n}
    (member : face ∈ way sink) :
    gain stopped sink frontier face.head =
      gain stopped sink frontier face.tail + face.reducedCost potential := by
  have own := finished.own_parts labelled fun v => finished.first_of_waits stopAtSink
  have whole := finished.traced.walk sink labelled
  obtain ⟨front, rest, split⟩ := List.append_of_mem member
  obtain ⟨x, first, second⟩ :=
    (split ▸ whole : Walk net.Usable source (front ++ face :: rest) sink).split
  obtain ⟨rfl, usable, last⟩ := Walk.cons_iff.mp second
  have split' : way sink = (front ++ [face]) ++ rest := by
    rw [split, List.append_assoc]
    rfl
  obtain ⟨near_tail, tail, _⟩ := own (face :: rest) front face.tail split first
  obtain ⟨near_head, head, _⟩ := own rest (front ++ [face]) face.head split' (first.snoc rfl usable)
  rw [reducedWalkCost_snoc] at head
  cases stopped with
  | false =>
      simp only [gain, Bool.false_eq_true, if_false, if_pos near_tail, if_pos near_head]
      omega
  | true =>
      have fair := fair rfl
      have remains : 0 ≤ reducedWalkCost potential rest := last.reducedWalkCost_nonneg fun other later =>
        fair other (split' ▸ List.mem_append_right _ later)
      have step := fair face member
      have sum := finished.traced.dist_eq labelled
      rw [split', reducedWalkCost_append, reducedWalkCost_snoc] at sum
      simp only [gain, if_true]
      omega

theorem gain_source (finished : Finished net potential goal source way stopped frontier)
    (labelled : frontier.dist sink < horizon)
    (fair : stopped = true → ∀ face ∈ way sink, 0 ≤ face.reducedCost potential) :
    gain stopped sink frontier source = 0 := by
  have zero := finished.dist_source
  have far : (0 : Int) < horizon := by decide
  rw [gain, zero, if_pos far]
  cases stopped with
  | false => rfl
  | true =>
      have nonneg := (finished.traced.walk sink labelled).reducedWalkCost_nonneg (fair rfl)
      rw [← finished.traced.dist_eq labelled] at nonneg
      simp only [if_true]
      omega

/-- What the prices raised by a search are good for. -/
theorem exists_raised {stopAtSink : Bool} {region : Fin n → Prop}
    (finished : Finished net potential (if stopAtSink then some (sink.val : Int) else none) source way
      stopped frontier) (labelled : frontier.dist sink < horizon) (size : potential.size = n)
    (begins : region source) (closed : ∀ face, net.Usable face → region face.tail → region face.head)
    (fair : stopAtSink = true → potential.Fair net region)
    (reached : stopAtSink = false → ∀ v, region v → frontier.dist v < horizon) :
    ∃ raised,
      potential.raise (Network.reachOf sink stopped frontier).dist sink.val stopped = .ok raised ∧
        raised.size = n ∧ raised.Fair net region ∧
        (∀ face ∈ way sink, face.reducedCost raised = 0) ∧
        raised.price source = potential.price source := by
  have walk := finished.traced.walk sink labelled
  have inside : ∀ face ∈ way sink, region face.tail := fun face member =>
    walk.tail_mem_of_closed closed begins member
  obtain rfl : stopped = stopAtSink := by simpa [labelled] using finished.stopped_eq
  have fair_route : stopped = true → ∀ face ∈ way sink, 0 ≤ face.reducedCost potential :=
    fun stop face member => fair stop face (walk.allowed_of_mem member) (inside face member)
  obtain ⟨raised, found, kept, prices⟩ := raise_eq size stopped sink frontier
  have reduced : ∀ face : Residual n, face.reducedCost raised =
      face.reducedCost potential + gain stopped sink frontier face.tail -
        gain stopped sink frontier face.head := by
    intro face
    rw [Residual.reducedCost, prices, prices, Residual.reducedCost]
    omega
  refine ⟨raised, found, kept, ?_, ?_, ?_⟩
  · intro face usable inner
    rw [reduced]
    cases stopped with
    | true =>
        have step := finished.gain_head_le_of_stopped usable (fair rfl face usable inner)
        omega
    | false =>
        have step := finished.gain_head_le_of_drained sink usable
          (reached rfl face.tail inner)
        omega
  · intro face member
    have step := finished.gain_head_eq labelled fair_route member
    rw [reduced]
    omega
  · rw [prices, finished.gain_source labelled fair_route]
    exact Int.add_zero _

end Finished

end Frontier

end MinCostFlow
