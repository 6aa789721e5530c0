import MinCostFlow.Proofs.Solve.FairPrices

/-! # What a solve writes down

The journal of a solve lists its augmentations as they are made, numbered from one, each with the
totals that it brings about. A reader of the journal thus knows at every moment what flows and what
it costs, and sees one thing more. Each search sets the price of the sink to what the next units
cost, and from the second search on prices are fair, so that it never falls: no augmentation is
cheaper than the one before.
-/

namespace MinCostFlow

open Network Frontier

variable {n : Nat}

/-- The records of augmentations, numbered from one, each with the totals up to and including it. -/
def recordsOf (augmentations : List Augmentation) : Journal :=
  augmentations.mapIdx fun place sent =>
    .augmented sent.units sent.unitCost (place + 1)
      (unitsOf (augmentations.take (place + 1))) (costOf (augmentations.take (place + 1)))

theorem recordsOf_concat (front : List Augmentation) (sent : Augmentation) :
    recordsOf (front ++ [sent]) = recordsOf front ++
      [.augmented sent.units sent.unitCost (front.length + 1)
        (unitsOf (front ++ [sent])) (costOf (front ++ [sent]))] := by
  have whole : (front ++ [sent]).take (front.length + 1) = front ++ [sent] :=
    List.take_of_length_le (by simp)
  rw [recordsOf, List.mapIdx_concat, whole, recordsOf]
  congr 1
  apply List.mapIdx_eq_mapIdx_iff.mpr
  intro place bound
  rw [List.take_append_of_le_length bound]

namespace Course

variable {net start : Network n} {source sink : Fin n} {limit : Option Int}
  {first last course next : Course n}

theorem journal_of_advance (advanced : course.advance source sink limit = .ok (some next)) :
    ∃ sent, course.Books next sent ∧ next.journal = course.journal ++
      [.augmented sent.units sent.unitCost next.augmentations.length next.flow next.cost] := by
  obtain ⟨found, _, _, augmented⟩ := augment_of_advance advanced
  obtain ⟨trail, _, books, _, _, written⟩ := books_of_augment augmented
  exact ⟨_, books, written⟩

/-- The journal of a course holds its augmentations and nothing else. -/
theorem Accounts.journal_eq (accounts : first.Accounts net)
    (written : first.journal = recordsOf first.augmentations)
    (leads : Leads source sink limit first last) : last.journal = recordsOf last.augmentations := by
  induction leads with
  | refl => exact written
  | @step second third before advanced ih =>
      have books : third.Accounts net := accounts.of_leads (before.step advanced)
      obtain ⟨sent, entry, journal⟩ := journal_of_advance advanced
      rw [journal, ih, books.flow, books.cost, entry.logged, recordsOf_concat, List.length_append,
        List.length_singleton]

/-- A course that began without augmentations has been at each number of them. -/
theorem exists_moment (leads : Leads source sink limit first last) (nothing : first.augmentations = [])
    {count : Nat} (within : count ≤ last.augmentations.length) :
    ∃ moment, Leads source sink limit first moment ∧
      moment.augmentations = last.augmentations.take count := by
  induction leads with
  | refl => exact ⟨first, .refl first, by rw [nothing, List.take_nil]⟩
  | @step second third before advanced ih =>
      obtain ⟨sent, entry, _⟩ := journal_of_advance advanced
      cases Nat.lt_or_ge second.augmentations.length count with
      | inl now =>
          refine ⟨third, .step before advanced, (List.take_of_length_le ?_).symm⟩
          rw [entry.logged, List.length_append, List.length_singleton]
          exact now
      | inr earlier =>
          obtain ⟨moment, reached, same⟩ := ih earlier
          exact ⟨moment, reached, by rw [same, entry.logged, List.take_append_of_le_length earlier]⟩

theorem Sound.price_le_walkCost (sound : Sound start source sink limit course)
    (stops : course.stopAtSink = true) {faces : List (Residual n)}
    (walk : Walk course.network.Usable source faces sink) :
    course.potential.price sink ≤ walkCost faces := by
  have nonneg := walk.reducedWalkCost_nonneg fun face member =>
    sound.ready stops face (walk.allowed_of_mem member)
      (walk.tail_mem_of_closed sound.closed (reaches_self _ _) member)
  have whole := walk.reducedWalkCost_eq course.potential
  have anchored := sound.anchored
  omega

/-- The units of a course cost more and more, and none more than the price of the sink. -/
structure Rising (sink : Fin n) (course : Course n) : Prop where
  sorted : course.augmentations.Pairwise fun earlier later => earlier.unitCost ≤ later.unitCost
  below : ∀ sent ∈ course.augmentations, sent.unitCost ≤ course.potential.price sink

/-- An augmentation costs what the price of the sink is raised to. -/
theorem Rising.of_extends {region : Fin n → Prop} {faces : List (Residual n)} {units : Int}
    (rising : course.Rising sink) (sound : Sound start source sink limit course)
    (stage : course.augmentations = [] ∨ course.stopAtSink = true)
    (step : Extends region source sink limit course next faces units) : next.Rising sink := by
  have price : walkCost faces = next.potential.price sink := by
    rw [step.walkCost_eq, step.anchored, sound.anchored, Int.sub_zero]
  have dearest : ∀ sent ∈ course.augmentations, sent.unitCost ≤ walkCost faces := by
    intro sent member
    rcases stage with nothing | stops
    · rw [nothing] at member
      cases member
    · exact (rising.below sent member).trans (sound.price_le_walkCost stops step.walk)
  obtain ⟨ids, _, logged⟩ := step.logged
  constructor
  · rw [logged, List.pairwise_append]
    refine ⟨rising.sorted, List.pairwise_singleton _ _, fun sent member last new => ?_⟩
    rw [List.mem_singleton.mp new]
    exact dearest sent member
  · rw [logged, ← price]
    exact List.forall_mem_append.mpr ⟨dearest, List.forall_mem_singleton.mpr (Int.le_refl _)⟩

theorem Sound.rising (sound : Sound start source sink limit first) (harmless : Harmless start source)
    (small : 2 * (start.liveMagnitude : Int) < horizon) (nothing : first.augmentations = [])
    (leads : Leads source sink limit first course) : course.Rising sink := by
  induction leads with
  | refl => exact ⟨by simp [nothing], by simp [nothing]⟩
  | @step second third before advanced ih =>
      obtain ⟨sound', stage⟩ := sound.of_leads harmless small before
      have advances := sound'.advances harmless small
      rw [advanced] at advances
      cases advances with
      | more step =>
          refine (ih).of_extends sound' (stage.imp_left fun same => ?_) step
          rw [same, nothing]

end Course

/-- The journal of the run is an exact account: it begins and ends with the records of a solve, and
    between them stands one record for each augmentation. Each sends something, the totals of each
    are those of the network at the moment when it has been made, and none is cheaper than the one
    before. The last totals are the answer. -/
structure Run.Ledger (net : Network n) (source sink : Fin n) (options : Options) (run : Run n) :
    Prop where
  journal : run.journal.atLeast .debug =
    .started n net.arcs.length source.val sink.val options :: recordsOf run.augmentations ++
      [.finished (unitsOf run.augmentations) (costOf run.augmentations) run.augmentations.length]
  positive : ∀ sent ∈ run.augmentations, 1 ≤ sent.units
  moments : ∀ count ≤ run.augmentations.length, ∃ moment,
    Course.Leads source sink options.maxFlow (net.course source options) moment ∧
      moment.journal = recordsOf (run.augmentations.take count) ∧
      net.perform (run.augmentations.take count) = .ok moment.network ∧
      moment.network.totalCost = costOf (run.augmentations.take count)
  rising : run.augmentations.Pairwise fun earlier later => earlier.unitCost ≤ later.unitCost
  answered : run.outcome =
    .ok { flow := unitsOf run.augmentations, cost := costOf run.augmentations }

namespace Network

variable {net : Network n} {source sink : Fin n} {options : Options}

theorem journal_of_last {last : Course n}
    (pursued : (net.course source options).pursue source sink options.maxFlow (net.solveBudget source) =
      (last, .ok ())) (unverified : options.verifyConservation = false) :
    (net.solveBetween source sink options).journal =
      .started n net.arcs.length source.val sink.val options :: last.journal ++
        [.finished last.flow last.cost last.augmentations.length] := by
  rw [solveBetween, pursued, unverified]
  simp

theorem Fresh.totalCost_of_leads (fresh : net.Fresh) (harmless : Harmless net source)
    (small : 2 * (net.liveMagnitude : Int) < horizon)
    (cap : ∀ bound, options.maxFlow = some bound → 0 ≤ bound) {moment : Course n}
    (leads : Course.Leads source sink options.maxFlow (net.course source options) moment) :
    moment.network.totalCost = moment.cost := by
  obtain ⟨sound, _⟩ := (fresh.sound_course harmless small cap).of_leads harmless small leads
  rw [sound.cost, fresh.totalCost_eq_zero, Int.zero_add]

theorem Fresh.solveBetween_ledger (fresh : net.Fresh) (harmless : Harmless net source)
    (small : 2 * (net.liveMagnitude : Int) < horizon) (apart : source ≠ sink)
    (cap : ∀ bound, options.maxFlow = some bound → 0 ≤ bound)
    (unverified : options.verifyConservation = false) :
    (net.solveBetween source sink options).Ledger net source sink options := by
  obtain ⟨last, pursued, _⟩ := fresh.exists_last options harmless small apart cap
  obtain ⟨_, logged, _⟩ := net.solveBetween_fields source sink options
  rw [pursued] at logged
  have leads := Course.leads_pursue source sink options.maxFlow (net.solveBudget source)
    (net.course source options)
  rw [pursued] at leads
  have begins := net.course_accounts source options
  have accounts := begins.of_leads leads
  have written {moment : Course n}
      (reached : Course.Leads source sink options.maxFlow (net.course source options) moment) :
      moment.journal = recordsOf moment.augmentations := begins.journal_eq rfl reached
  exact {
    journal := by
      rw [Journal.atLeast_debug, journal_of_last pursued unverified, written leads, accounts.flow,
        accounts.cost, logged]
    positive := by
      rw [logged]
      exact accounts.positive
    moments := by
      rw [logged]
      intro count within
      obtain ⟨moment, reached, same⟩ := Course.exists_moment leads rfl within
      have books := begins.of_leads reached
      have worth := fresh.totalCost_of_leads harmless small cap reached
      rw [← same, ← books.cost]
      exact ⟨moment, reached, written reached, books.performed, worth⟩
    rising := by
      rw [logged]
      exact ((fresh.sound_course harmless small cap).rising harmless small rfl leads).sorted
    answered := by
      rw [outcome_of_last pursued unverified, accounts.flow, accounts.cost, logged] }

end Network

end MinCostFlow
