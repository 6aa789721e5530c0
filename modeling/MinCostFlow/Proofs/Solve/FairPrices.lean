import MinCostFlow.Proofs.Solve.Outcome

/-! # Prices in the course of a solve

Between any two searches of a solve the price of the source is zero, and no usable face that leaves
the region in reach of the source at the outset undercuts the prices. Three kinds of searches raise
them: one to the end, which leaves the prices of what it has not reached alone; ones that stop at the
sink, which raise nothing further than the sink; and ones over prices that were seeded. All of
them make the route tight, so that the twins which open when flow is sent along it are tight too.
Only a first search from zero prices may find arcs that undercut them.
-/

namespace MinCostFlow

open Network Frontier

variable {n : Nat}

namespace Course

variable {start : Network n} {source sink : Fin n} {limit : Option Int} {first course : Course n}

/-- Every course that comes out of a sound one is sound, and after an augmentation its searches may
    stop at the sink. -/
theorem Sound.of_leads (sound : Sound start source sink limit first) (harmless : Harmless start source)
    (small : 2 * (start.liveMagnitude : Int) < horizon) (leads : Leads source sink limit first course) :
    Sound start source sink limit course ∧ (course = first ∨ course.stopAtSink = true) := by
  induction leads with
  | refl => exact ⟨sound, .inl rfl⟩
  | step _ advanced ih =>
      obtain ⟨sound, _⟩ := ih
      have advances := sound.advances harmless small
      rw [advanced] at advances
      cases advances with
      | more step => exact ⟨step.sound sound, .inr step.stop⟩

end Course

namespace Network

variable {net : Network n} {source sink : Fin n} {options : Options}

theorem hasNegativeCost_eq_false_iff :
    net.hasNegativeCost = false ↔ ∀ arc ∈ net.arcs, arc.Open → 0 ≤ arc.cost := by
  simp [hasNegativeCost]

/-- A solve of a network that carries nothing and has no cycle of negative cost gets as far as
    searching. At the start of each search the source has the price zero, and no usable face out of
    what was in reach at the outset undercuts the prices, unless it is the first search from zero
    prices over an arc that pays. And each search that reaches the sink, also the last one under a
    cap, raises the prices so that all faces of its route cost nothing. -/
theorem prices_stay_fair (net : Network n) (fresh : net.Fresh) (acyclic : ¬ net.HasNegativeCycle)
    (small : 4 * (net.costMagnitude : Int) < horizon) (source sink : Fin n) (apart : source ≠ sink)
    (options : Options) (cap : ∀ bound, options.maxFlow = some bound → 0 ≤ bound)
    (allow : options.allowNegativeCosts = true) :
    net.solve source.val sink.val options = net.solveBetween source sink options ∧
    ∀ course, Course.Leads source sink options.maxFlow (net.course source options) course →
      course.potential.size = n ∧ course.potential.price source = 0 ∧
      (course ≠ net.course source options ∨ options.seedPotentials = true ∨
          (∀ arc ∈ net.arcs, arc.Open → 0 ≤ arc.cost) →
        course.potential.Fair course.network (Reaches net.Usable source)) ∧
      ∀ found, course.discover source sink = .ok (some found) →
        ∃ faces, Course.Discovers (Reaches net.Usable source) source sink course found faces := by
  have live := net.liveMagnitude_le
  have harmless := fresh.harmless acyclic source
  have begins : Course.Sound net source sink options.maxFlow (net.course source options) :=
    fresh.sound_course harmless (by omega) cap
  constructor
  · rw [net.solve_eq apart, objection?_eq_none cap allow fun _ => acyclic]
  · intro course leads
    obtain ⟨sound, stage⟩ := begins.of_leads harmless (by omega) leads
    refine ⟨sound.size, sound.anchored, fun eligible => sound.ready ?_, fun found discovered => ?_⟩
    · rcases stage with rfl | stops
      · rcases eligible with later | seeded | nonneg
        · exact absurd rfl later
        · simp [Network.course, seeded]
        · simp [Network.course, hasNegativeCost_eq_false_iff.mpr nonneg]
      · exact stops
    · rcases sound.discovers harmless (by omega) with ⟨missed, _⟩ | ⟨other, faces, again, discovers⟩
      · rw [discovered] at missed
        cases missed
      · rw [discovered] at again
        obtain rfl := Option.some.inj (Except.ok.inj again)
        exact ⟨faces, discovers⟩

theorem prices_stay_fair_twoWays :
    ∃ next, (twoWays.course 0 {}).advance 0 3 none = .ok (some next) ∧
      next.potential.price (0 : Fin 4) = 0 ∧
      next.potential.Fair next.network (Reaches twoWays.Usable 0) := by
  obtain ⟨_, stays⟩ := prices_stay_fair twoWays (by decide) not_hasNegativeCycle_twoWays (by decide)
    0 3 (by decide) {} (by rintro _ ⟨⟩) rfl
  have ran : ((twoWays.course 0 {}).advance 0 3 none).map (Option.map Course.stopAtSink) =
      .ok (some true) := by
    decide +kernel
  cases advanced : (twoWays.course 0 {}).advance 0 3 none with
  | error fault =>
      rw [advanced] at ran
      cases ran
  | ok answer =>
      rw [advanced] at ran
      cases answer with
      | none => cases ran
      | some next =>
          have stops : next.stopAtSink = true := Option.some.inj (Except.ok.inj ran)
          obtain ⟨_, anchored, fair, _⟩ := stays next (.step (.refl _) advanced)
          refine ⟨next, rfl, anchored, fair (.inl ?_)⟩
          rintro rfl
          exact absurd stops (by decide)

end Network

end MinCostFlow
