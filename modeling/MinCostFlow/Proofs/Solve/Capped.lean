import MinCostFlow.Proofs.History.Slots
import MinCostFlow.Proofs.Solve.FirstUnits
import MinCostFlow.Proofs.Solve.Outcome

/-! # What a cap does to a solve

Searches know nothing of the cap, so with a cap and without one a solve finds the same paths, one
after the other, until the cap is met. Only the last augmentation before that may send less. The
network is then one that the solve without a cap never sees, but all that happens to it is one more
search, after which nothing may be sent. So a cap takes the first units of the whole, each for what
its path costs.
-/

namespace MinCostFlow

open Network Frontier

variable {n : Nat}

namespace Course

variable {start : Network n} {source sink : Fin n} {limit : Option Int} {bound : Int}
  {course next : Course n} {found : Discovery n}

theorem exists_suffix (source sink : Fin n) (limit : Option Int) (budget : Nat) (course : Course n) :
    ∃ later, (course.pursue source sink limit budget).1.augmentations = course.augmentations ++ later := by
  have leads := leads_pursue source sink limit budget course
  generalize (course.pursue source sink limit budget).1 = last at leads
  induction leads with
  | refl => exact ⟨[], (List.append_nil _).symm⟩
  | step _ advanced ih =>
      obtain ⟨later, same⟩ := ih
      obtain ⟨found, _, _, augmented⟩ := augment_of_advance advanced
      obtain ⟨trail, _, books, _⟩ := books_of_augment augmented
      exact ⟨later ++ [_], by rw [books.logged, same, List.append_assoc]⟩

theorem pursue_of_met (met : limit = some course.flow) (budget : Nat) :
    (course.pursue source sink limit budget).1 = course := by
  cases budget with
  | zero => rfl
  | succ budget =>
      unfold pursue
      cases advanced : course.advance source sink limit with
      | error fault => rfl
      | ok next? =>
          cases next? with
          | none => rfl
          | some next =>
              obtain ⟨found, _, positive, _⟩ := augment_of_advance advanced
              subst met
              simp only [allowance] at positive
              omega

theorem rests_iff :
    course.advance source sink limit = .ok none ↔
      course.discover source sink = .ok none ∨
        ∃ found, course.discover source sink = .ok (some found) ∧
          course.allowance limit (found.reach.labels.entry sink).bottleneck ≤ 0 := by
  rw [advance_eq]
  cases discovered : course.discover source sink with
  | error fault => simp [bind, Except.bind]
  | ok found? =>
      cases found? with
      | none => simp [bind, Except.bind]
      | some found =>
          by_cases nothing :
            course.allowance limit (found.reach.labels.entry sink).bottleneck ≤ 0
          · simp [bind, Except.bind, nothing]
          · cases augmented : course.augment source sink found
                (course.allowance limit (found.reach.labels.entry sink).bottleneck) with
            | error fault => simp [bind, Except.bind, nothing, augmented, Functor.map, Except.map]
            | ok next => simp [bind, Except.bind, nothing, augmented, Functor.map, Except.map]

theorem rests_of_cap (rests : course.advance source sink none = .ok none) (bound : Int) :
    course.advance source sink (some bound) = .ok none := by
  cases rests_iff.mp rests with
  | inl missed => exact rests_iff.mpr (.inl missed)
  | inr found =>
      obtain ⟨found, discovered, nothing⟩ := found
      exact rests_iff.mpr (.inr ⟨found, discovered, (min_le_left _ _).trans nothing⟩)

theorem advance_of_fits (advanced : course.advance source sink none = .ok (some next))
    (discovered : course.discover source sink = .ok (some found))
    (fits : (found.reach.labels.entry sink).bottleneck ≤ bound - course.flow) :
    course.advance source sink (some bound) = .ok (some next) := by
  have same : course.allowance (some bound) (found.reach.labels.entry sink).bottleneck =
      course.allowance none (found.reach.labels.entry sink).bottleneck := min_eq_left fits
  rw [advance_eq, discovered] at advanced ⊢
  simp only [bind, Except.bind, same] at advanced ⊢
  exact advanced

/-- If a whole bottleneck does not fit under the cap, as much is sent as is missing, along the same
    path. -/
theorem Sound.exists_cut (sound : Sound start source sink (some bound) course)
    (harmless : Harmless start source) (small : 2 * (start.liveMagnitude : Int) < horizon)
    (discovered : course.discover source sink = .ok (some found))
    (left : course.flow < bound)
    (cut : bound - course.flow < (found.reach.labels.entry sink).bottleneck) :
    ∃ next, course.advance source sink (some bound) = .ok (some next) ∧
      course.augment source sink found (bound - course.flow) = .ok next := by
  have missing : course.allowance (some bound) (found.reach.labels.entry sink).bottleneck =
      bound - course.flow := min_eq_right (Int.le_of_lt cut)
  have advances := sound.advances harmless small
  cases advanced : course.advance source sink (some bound) with
  | error fault =>
      rw [advanced] at advances
      cases advances
  | ok next? =>
      cases next? with
      | none =>
          rcases rests_iff.mp advanced with missed | ⟨again, refound, nothing⟩
          · rw [discovered] at missed
            cases missed
          · rw [discovered] at refound
            cases refound
            omega
      | some next =>
          obtain ⟨again, refound, _, augmented⟩ := augment_of_advance advanced
          rw [discovered] at refound
          cases refound
          rw [missing] at augmented
          exact ⟨next, rfl, augmented⟩

theorem Sound.under_cap (sound : Sound start source sink none course) (fits : course.flow ≤ bound) :
    Sound start source sink (some bound) course :=
  { sound with
    capped := fun _ given => by
      cases given
      exact fits }

/-- How a step without a cap and a step under a cap can go side by side. -/
inductive Parallel (bound : Int) (course : Course n) :
    Except Fault (Option (Course n)) → Except Fault (Option (Course n)) → Prop where
  | rest : Parallel bound course (.ok none) (.ok none)
  | whole {next : Course n} {sent : Augmentation} :
    course.Books next sent → sent.units ≤ bound - course.flow →
    Parallel bound course (.ok (some next)) (.ok (some next))
  | cut {next short : Course n} {sent : Augmentation} :
    course.Books next sent → bound - course.flow < sent.units →
    course.Books short { sent with units := bound - course.flow } →
    Parallel bound course (.ok (some next)) (.ok (some short))

theorem Sound.parallel (sound : Sound start source sink none course)
    (harmless : Harmless start source) (small : 2 * (start.liveMagnitude : Int) < horizon)
    (left : course.flow < bound) :
    Parallel bound course (course.advance source sink none) (course.advance source sink (some bound)) := by
  have advances := sound.advances harmless small
  cases advanced : course.advance source sink none with
  | error fault =>
      rw [advanced] at advances
      cases advances
  | ok next? =>
      cases next? with
      | none =>
          rw [rests_of_cap advanced bound]
          exact .rest
      | some next =>
          obtain ⟨found, discovered, _, augmented⟩ := augment_of_advance advanced
          obtain ⟨trail, followed, books, _⟩ := books_of_augment augmented
          cases le_or_gt (found.reach.labels.entry sink).bottleneck (bound - course.flow) with
          | inl fits =>
              rw [advance_of_fits advanced discovered fits]
              exact .whole books fits
          | inr cut =>
              obtain ⟨short, capped, augmented⟩ :=
                (sound.under_cap (Int.le_of_lt left)).exists_cut harmless small discovered left cut
              obtain ⟨again, refollowed, shortened, _⟩ := books_of_augment augmented
              rw [followed] at refollowed
              cases refollowed
              rw [capped]
              exact .cut books cut shortened

/-- Under a cap a solve goes the way that it goes without one, until the cap is met. -/
theorem Sound.lockstep (sound : Sound start source sink none course)
    (harmless : Harmless start source) (small : 2 * (start.liveMagnitude : Int) < horizon)
    (budget : Nat) (fits : course.flow ≤ bound) :
    ∃ later,
      (course.pursue source sink none budget).1.augmentations = course.augmentations ++ later ∧
      (course.pursue source sink (some bound) budget).1.augmentations =
        course.augmentations ++ firstUnits (bound - course.flow) later := by
  -- both solves stand at the same course, up to the step that meets the cap
  induction budget generalizing course with
  | zero => exact ⟨[], (List.append_nil _).symm, (List.append_nil _).symm⟩
  | succ budget ih =>
      cases Int.lt_or_eq_of_le fits with
      | inr met =>
          obtain ⟨later, whole⟩ := exists_suffix source sink none (budget + 1) course
          refine ⟨later, whole, ?_⟩
          rw [pursue_of_met (congrArg some met.symm), firstUnits_of_nonpos (by omega), List.append_nil]
      | inl left =>
          have parallel := sound.parallel harmless small left
          have missing := Int.sub_pos_of_lt left
          have advances := sound.advances harmless small
          unfold Course.pursue
          generalize course.advance source sink none = uncapped at parallel advances
          generalize course.advance source sink (some bound) = capped at parallel
          cases parallel with
          | rest => exact ⟨[], (List.append_nil _).symm, (List.append_nil _).symm⟩
          | @whole next sent books fits =>
              cases advances with
              | more step =>
                  have flow := books.flow
                  obtain ⟨later, uncapped, capped⟩ := ih (step.sound sound) (by omega)
                  refine ⟨sent :: later, ?_, ?_⟩
                  · rw [uncapped, books.logged, List.append_assoc, List.singleton_append]
                  · rw [capped, books.logged, List.append_assoc, List.singleton_append,
                      firstUnits_cons_of_le missing fits, flow, Int.sub_sub]
          | @cut next short sent books cut shortened =>
              obtain ⟨later, whole⟩ := exists_suffix source sink none budget next
              have met : bound = short.flow := by
                have flow := shortened.flow
                dsimp only at flow
                omega
              refine ⟨sent :: later, ?_, ?_⟩
              · rw [whole, books.logged, List.append_assoc, List.singleton_append]
              · rw [pursue_of_met (congrArg some met), shortened.logged, firstUnits_cons_of_lt missing cut]

end Course

namespace Network

variable {net other : Network n} {source sink : Fin n} {options : Options}

/-- What a unit costs along a trail. -/
def trailCost (net : Network n) (ids : List ArcId) : Except Fault Int := do
  let faces ← ids.mapM net.edge
  return walkCost faces

theorem exists_edge_of_sameArcs (same : SameArcs other net) {id : ArcId} {face : Residual n}
    (named : other.Names id face) : ∃ again, net.edge id = .ok again ∧ again.cost = face.cost := by
  obtain ⟨tail, place, index, found⟩ := named
  have drained : (net.reset.out face.tail)[place]? = some face.drained := by
    rw [← same, out_reset, List.getElem?_map, found, Option.map_some]
  rw [out_reset, List.getElem?_map, Option.map_eq_some_iff] at drained
  obtain ⟨again, found, same⟩ := drained
  have cost : again.drained.cost = face.drained.cost := congrArg Residual.cost same
  refine ⟨again, ?_, cost⟩
  obtain ⟨_, _⟩ := id
  dsimp only at tail index
  rw [tail, index]
  exact edge_of_getElem? found

theorem trailCost_eq (same : SameArcs other net) {ids : List ArcId} {faces : List (Residual n)}
    (named : List.Forall₂ other.Names ids faces) : net.trailCost ids = .ok (walkCost faces) := by
  have again : ∃ others, ids.mapM net.edge = .ok others ∧ walkCost others = walkCost faces := by
    induction named with
    | nil => exact ⟨[], rfl, rfl⟩
    | cons first _ ih =>
        obtain ⟨face, edge, cost⟩ := exists_edge_of_sameArcs same first
        obtain ⟨others, edges, costs⟩ := ih
        refine ⟨face :: others, ?_, ?_⟩
        · rw [List.mapM_cons, edge, edges]
          rfl
        · simp only [walkCost, List.map_cons, List.sum_cons] at costs ⊢
          rw [cost, costs]
  obtain ⟨others, edges, costs⟩ := again
  rw [trailCost, edges]
  exact congrArg Except.ok costs

/-- Where no closed walk of negative cost is in reach, each augmentation of a solve is worth what the
    arcs of its trail cost. -/
theorem Fresh.trailCosts (fresh : net.Fresh) (options : Options) (harmless : Harmless net source)
    (small : 2 * (net.liveMagnitude : Int) < horizon) (apart : source ≠ sink)
    (cap : ∀ bound, options.maxFlow = some bound → 0 ≤ bound) :
    ∃ last, (net.course source options).pursue source sink options.maxFlow (net.solveBudget source) =
        (last, .ok ()) ∧
      ∀ sent ∈ last.augmentations, net.trailCost sent.trail = .ok sent.unitCost := by
  have keeps : ∀ (course next : Course n) (faces : List (Residual n)) (units : Int),
      Course.Sound net source sink options.maxFlow course →
      (∀ sent ∈ course.augmentations, net.trailCost sent.trail = .ok sent.unitCost) →
      Course.Extends (Reaches net.Usable source) source sink options.maxFlow course next faces units →
      ∀ sent ∈ next.augmentations, net.trailCost sent.trail = .ok sent.unitCost := by
    intro course next faces units sound before step
    obtain ⟨ids, named, logged⟩ := step.logged
    rw [logged]
    refine List.forall_mem_append.mpr ⟨before, List.forall_mem_singleton.mpr ?_⟩
    exact trailCost_eq sound.same named
  obtain ⟨last, pursued, _, priced, _⟩ :=
    fresh.pursue_keeps options harmless small apart cap (by simp [course]) keeps
  exact ⟨last, pursued, priced⟩

end Network

def Options.limited (options : Options) (limit : Option Int) : Options :=
  { options with maxFlow := limit }

/-- The run sends the first units of a whole, each for what it costs there, and answers with what
    it has sent. -/
structure Run.Caps (net : Network n) (bound : Int) (run whole : Run n) : Prop where
  cut : CutAt bound whole.augmentations run.augmentations
  performed : net.perform run.augmentations = .ok run.network
  answered : run.outcome =
    .ok { flow := unitsOf run.augmentations, cost := costOf run.augmentations }
  cost : costOf run.augmentations = ((unitPrices whole.augmentations).take bound.toNat).sum

namespace Network

variable {net : Network n} {source sink : Fin n} {options : Options}

theorem Fresh.augmentations_capped (fresh : net.Fresh) (harmless : Harmless net source)
    (small : 2 * (net.liveMagnitude : Int) < horizon) (sink : Fin n) (options : Options) {bound : Int}
    (nonneg : 0 ≤ bound) :
    (net.solveBetween source sink (options.limited (some bound))).augmentations =
      firstUnits bound (net.solveBetween source sink (options.limited none)).augmentations := by
  obtain ⟨_, whole, _⟩ := net.solveBetween_fields source sink (options.limited none)
  obtain ⟨_, capped, _⟩ := net.solveBetween_fields source sink (options.limited (some bound))
  have sound : Course.Sound net source sink (options.limited none).maxFlow
      (net.course source (options.limited none)) := fresh.sound_course harmless small nofun
  obtain ⟨later, uncut, cut⟩ := sound.lockstep harmless small (net.solveBudget source) nonneg
  calc (net.solveBetween source sink (options.limited (some bound))).augmentations
    _ = firstUnits (bound - 0) later := capped.trans cut
    _ = firstUnits bound later := by rw [Int.sub_zero]
    _ = firstUnits bound (net.solveBetween source sink (options.limited none)).augmentations :=
      congrArg (firstUnits bound) (whole.trans uncut).symm

theorem Fresh.solve_answers (fresh : net.Fresh) (acyclic : ¬ net.HasNegativeCycle)
    (small : 4 * (net.costMagnitude : Int) < horizon) (apart : source ≠ sink)
    (cap : ∀ bound, options.maxFlow = some bound → 0 ≤ bound)
    (allow : options.allowNegativeCosts = true) (unverified : options.verifyConservation = false) :
    net.solve source.val sink.val options = net.solveBetween source sink options ∧
      ∃ answer, (net.solveBetween source sink options).outcome = .ok answer := by
  have live := net.liveMagnitude_le
  obtain ⟨last, pursued, _⟩ := fresh.exists_last options (fresh.harmless acyclic source) (by omega) apart cap
  refine ⟨?_, _, outcome_of_last pursued unverified⟩
  rw [net.solve_eq apart, objection?_eq_none cap allow fun _ => acyclic]

theorem Fresh.caps (fresh : net.Fresh) (acyclic : ¬ net.HasNegativeCycle)
    (small : 4 * (net.costMagnitude : Int) < horizon) (apart : source ≠ sink)
    (allow : options.allowNegativeCosts = true) (unverified : options.verifyConservation = false)
    {bound : Int} (nonneg : 0 ≤ bound) :
    (net.solve source.val sink.val (options.limited (some bound))).Caps net bound
      (net.solve source.val sink.val (options.limited none)) := by
  have live := net.liveMagnitude_le
  have cap : ∀ limit, (options.limited (some bound)).maxFlow = some limit → 0 ≤ limit := by
    rintro _ ⟨⟩
    exact nonneg
  obtain ⟨searches, answer, answered⟩ := fresh.solve_answers acyclic small apart cap allow unverified
  obtain ⟨whole, _⟩ :=
    @Fresh.solve_answers n net source sink (options.limited none) fresh acyclic small apart nofun allow
      unverified
  have cut := fresh.augmentations_capped (fresh.harmless acyclic source) (by omega) sink options nonneg
  have account := net.solveBetween_accounts source sink (options.limited none)
  have accounts := net.solveBetween_accounts source sink (options.limited (some bound))
  rw [whole, searches]
  exact {
    cut := by
      rw [cut]
      exact cutAt_firstUnits account.positive nonneg
    performed := accounts.performed
    answered := by rw [answered, accounts.answer answer answered]
    cost := by
      rw [cut]
      exact costOf_firstUnits account.positive nonneg }

/-- A solve under a cap performs the augmentations of the solve without a cap, one after the other,
    the last of them cut short, and answers. So a higher cap buys further units, each for what its
    path costs. -/
theorem capped_solve_is_prefix (net : Network n) (fresh : net.Fresh)
    (acyclic : ¬ net.HasNegativeCycle) (small : 4 * (net.costMagnitude : Int) < horizon)
    (source sink : Fin n) (apart : source ≠ sink) (options : Options)
    (allow : options.allowNegativeCosts = true) (unverified : options.verifyConservation = false) :
    let whole := net.solve source.val sink.val (options.limited none)
    let capped := fun bound => net.solve source.val sink.val (options.limited (some bound))
    (∃ answer, whole.outcome = .ok answer) ∧ whole.Accounts net ∧
      (∀ sent ∈ whole.augmentations, net.trailCost sent.trail = .ok sent.unitCost) ∧
      (∀ bound, 0 ≤ bound → (capped bound).Caps net bound whole) ∧
      ∀ less more, 0 ≤ less → less ≤ more →
        costOf (capped more).augmentations = costOf (capped less).augmentations +
          (((unitPrices whole.augmentations).take more.toNat).drop less.toNat).sum := by
  dsimp only
  have live := net.liveMagnitude_le
  have caps {bound : Int} (nonneg : 0 ≤ bound) :
      (net.solve source.val sink.val (options.limited (some bound))).Caps net bound
        (net.solve source.val sink.val (options.limited none)) :=
    fresh.caps acyclic small apart allow unverified nonneg
  obtain ⟨searches, answers⟩ :=
    @Fresh.solve_answers n net source sink (options.limited none) fresh acyclic small apart nofun allow
      unverified
  refine ⟨searches ▸ answers, net.solve_accounts _ _ _, ?_, fun _ => caps, ?_⟩
  · obtain ⟨last, pursued, priced⟩ := @Fresh.trailCosts n net source sink fresh (options.limited none)
      (fresh.harmless acyclic source) (by omega) apart nofun
    obtain ⟨_, augmentations, _⟩ := net.solveBetween_fields source sink (options.limited none)
    rw [pursued] at augmentations
    rw [searches, augmentations]
    exact priced
  · intro less more nonneg le
    rw [(caps nonneg).cost, (caps (Int.le_trans nonneg le)).cost]
    exact sum_take_of_le (Int.toNat_le_toNat le) _

theorem capped_solve_is_prefix_twoWays :
    unitPrices (twoWays.solve 0 3 { seedPotentials := true }).augmentations = [-3, 5] ∧
      (twoWays.solve 0 3 { maxFlow := some 1, seedPotentials := true }).Caps twoWays 1
        (twoWays.solve 0 3 { seedPotentials := true }) := by
  obtain ⟨_, _, _, caps, _⟩ := capped_solve_is_prefix twoWays (by decide) not_hasNegativeCycle_twoWays
    (by decide) 0 3 (by decide) { seedPotentials := true } rfl rfl
  exact ⟨by decide +kernel, caps 1 (by decide)⟩

end Network

end MinCostFlow
