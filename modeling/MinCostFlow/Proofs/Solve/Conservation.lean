import Mathlib.Algebra.Order.BigOperators.Group.List
import MinCostFlow.Proofs.Flow.Balance
import MinCostFlow.Proofs.Search.Links
import MinCostFlow.Proofs.Solve.Outcome

/-! # What a solve does to balances

Nothing is assumed here about the network: it may carry any flow, within its capacities or not, and
it may have closed walks of negative cost. A search may then fail. But if it finds a trail, that
trail is a walk of usable faces from the source to the sink, so that each augmentation takes its
units out of the source and into the sink and leaves every other balance alone. However a solve
ends, this holds of all that it has sent.
-/

namespace MinCostFlow

open Network Frontier

variable {n : Nat}

namespace Network

variable {net : Network n} {faces : List (Residual n)} {u v : Fin n}

theorem out_pushAlong_of_away {face : Residual n} (member : face ∈ net.residuals)
    (tail : face.tail ≠ u) (head : face.head ≠ u) (amount : Int) :
    (net.pushAlong face amount).out u = net.out u := by
  have same : ∀ item ∈ net.out u, face.refill amount item = item := by
    intro item leaves
    obtain ⟨inside, rfl⟩ := mem_out.mp leaves
    refine (Residual.refill_of_ne (fun same => ?_) amount).symm
    cases eq_or_reversed inside member same with
    | inl same => exact tail (same ▸ rfl)
    | inr reversed => exact head reversed.1.symm
  rw [out_pushAlong, List.map_congr_left same, List.map_id']

theorem out_pushEach_of_away (separate : net.Separate faces)
    (away : ∀ face ∈ faces, face.tail ≠ u ∧ face.head ≠ u) (amount : Int) :
    (net.pushEach faces amount).out u = net.out u := by
  induction faces generalizing net with
  | nil => rfl
  | cons face rest ih =>
      obtain ⟨first, others⟩ := List.forall_mem_cons.mp away
      rw [pushEach_cons, ih (separate.tail amount) others,
        out_pushAlong_of_away separate.head first.1 first.2]

/-- A walk that visits no node twice leaves its first node once, so units that are sent along it
    use up room out of that node, and nothing gives any back. -/
theorem solveBudget_pushEach_lt (walk : Walk net.Usable u faces v) (simple : (visits u faces).Nodup)
    (apart : u ≠ v) {amount : Int} (positive : 0 < amount) :
    (net.pushEach faces amount).solveBudget u < net.solveBudget u := by
  have separate := Separate.of_walk walk simple
  cases walk with
  | nil => exact absurd rfl apart
  | @cons face rest _ usable walk =>
      have fresh := (List.nodup_cons.mp simple).1
      have away : ∀ other ∈ rest, other.tail ≠ face.tail ∧ other.head ≠ face.tail := fun other later =>
        ⟨fun same => fresh (same ▸ walk.tail_mem_visits later),
          fun same => fresh (same ▸ head_mem_visits _ later)⟩
      have onward : face.head ≠ face.tail := fun same => fresh (same ▸ List.mem_cons_self)
      have member : face ∈ net.out face.tail := mem_out.mpr ⟨usable.1, rfl⟩
      have spent : ∀ item ∈ net.out face.tail,
          (face.refill amount item).room.toNat ≤ item.room.toNat := by
        intro item leaves
        obtain ⟨inside, tail⟩ := mem_out.mp leaves
        by_cases same : item.arc = face.arc
        · cases eq_or_reversed inside usable.1 same with
          | inl here =>
              subst here
              simp only [Residual.refill, if_true]
              omega
          | inr reversed => exact absurd (reversed.1.symm.trans tail) onward
        · rw [← Residual.refill_of_ne same]
      have used : (face.refill amount face).room.toNat < face.room.toNat := by
        have room := usable.2
        simp only [Residual.refill, if_true]
        omega
      rw [pushEach_cons, solveBudget_eq, out_pushEach_of_away (separate.tail amount) away,
        out_pushAlong, List.map_map, solveBudget_eq]
      exact Nat.add_lt_add_right (List.sum_lt_sum _ _ spent ⟨face, member, used⟩) 1

theorem verifyConservation_fault {source sink : Fin n} {amount : Int} {fault : Fault}
    (failed : (net.verifyConservation source.val sink.val amount).2 = .error fault) :
    fault = .tooWide ∨ ∃ cause, fault = .state cause := by
  unfold verifyConservation at failed
  split at failed
  · rename_i other found
    cases failed
    rcases net.imbalance?_cases source sink amount with ⟨_, answered⟩ | ⟨_, wide⟩
    · rw [answered] at found
      cases found
    · rw [wide] at found
      cases found
      exact .inl rfl
  · cases failed
  · cases failed
    exact .inr ⟨_, rfl⟩

theorem objection?_fault {options : Options} {fault : Fault} {journal : Journal}
    (objects : net.objection? options = some (fault, journal)) :
    (∃ cause, fault = .argument cause) ∨ ∃ cause, fault = .state cause := by
  unfold objection? at objects
  split at objects
  · cases objects
    exact .inl ⟨_, rfl⟩
  · split at objects
    · cases objects
      exact .inl ⟨_, rfl⟩
    · split at objects
      · rcases net.findNegativeCycle_cases with ⟨_, found⟩ | ⟨_, cycle, found⟩
        · rw [found] at objects
          cases objects
        · rw [found] at objects
          cases objects
          exact .inr ⟨_, rfl⟩
      · cases objects

end Network

namespace Course

variable {net : Network n} {source sink : Fin n} {limit : Option Int} {course next : Course n}
  {faces : List (Residual n)} {units : Int}

/-- Some units go along a walk from the source to the sink. -/
structure Sends (source sink : Fin n) (limit : Option Int) (course next : Course n)
    (faces : List (Residual n)) (units : Int) : Prop where
  walk : Walk course.network.Usable source faces sink
  simple : (visits source faces).Nodup
  positive : 0 < units
  capped : ∀ bound, limit = some bound → course.flow + units ≤ bound
  network : next.network = course.network.pushEach faces units
  flow : next.flow = course.flow + units
  size : next.potential.size = n

/-- All that a step of a solve can come to. -/
inductive Goes (source sink : Fin n) (limit : Option Int) (course : Course n) :
    Except Fault (Option (Course n)) → Prop where
  | rests : Goes source sink limit course (.ok none)
  | sends {next : Course n} {faces : List (Residual n)} {units : Int} :
    Sends source sink limit course next faces units → Goes source sink limit course (.ok (some next))
  | tooLong : Goes source sink limit course (.error (.state .endlessPath))
  | astray : Goes source sink limit course (.error .strayTrail)

theorem flow_add_allowance_le {bound : Int} (cap : limit = some bound) (bottleneck : Int) :
    course.flow + course.allowance limit bottleneck ≤ bound := by
  subst cap
  simp only [allowance]
  omega

theorem goes (course : Course n) (source sink : Fin n) (limit : Option Int)
    (size : course.potential.size = n) :
    Goes source sink limit course (course.advance source sink limit) := by
  rw [advance_eq, discover, search_eq]
  rcases drain_linked course.network (if course.stopAtSink then some (sink.val : Int) else none) source
    size with ⟨last, stopped, drained, linked, ceiling⟩ | failed
  · rw [drained]
    by_cases labelled : last.dist sink < horizon
    · have reached : (reachOf sink stopped last).reachedSink = true :=
        decide_eq_true (Int.ne_of_lt labelled)
      obtain ⟨raised, raises, sized, _⟩ := raise_eq size stopped sink last
      have raises : course.potential.raise (reachOf sink stopped last).dist sink.val
        (reachOf sink stopped last).stoppedAtSink = .ok raised := raises
      simp only [bind, Except.bind, Except.map, reached, if_true, raises, pure, Except.pure]
      split
      · exact .rests
      · rename_i something
        rcases trail_cases linked stopped labelled with ⟨ids, faces, trail, named, walk, simple⟩ | stray
        · obtain ⟨next, augmented, network, flow, _, _, potential, _⟩ := augment_eq
            { reach := reachOf sink stopped last, potential := raised } _ trail named
            (walk.nodup_arcs simple)
          rw [augmented]
          exact .sends {
            walk, simple, network, flow
            positive := Int.not_le.mp something
            capped := fun bound cap => flow_add_allowance_le cap _
            size := potential ▸ sized }
        · rw [augment, stray]
          exact .astray
    · have missed : (reachOf sink stopped last).reachedSink = false :=
        decide_eq_false (not_not.mpr (Int.le_antisymm (ceiling sink) (Int.not_lt.mp labelled)))
      simp only [bind, Except.bind, Except.map, missed, Bool.false_eq_true, if_false, pure, Except.pure]
      exact .rests
  · rw [failed]
    exact .tooLong

/-- How far a solve that began with `start` has come: what it has sent is missing at the source, has
    arrived at the sink, and no other balance has changed. -/
structure Conserves (start : Network n) (source sink : Fin n) (limit : Option Int) (course : Course n) :
    Prop where
  size : course.potential.size = n
  nonneg : 0 ≤ course.flow
  capped : ∀ bound, limit = some bound → course.flow ≤ bound
  balance : ∀ v, course.network.exactBalance v = start.exactBalance v +
    (if sink = v then course.flow else 0) - (if source = v then course.flow else 0)

theorem Conserves.sends (conserves : Conserves net source sink limit course)
    (step : Sends source sink limit course next faces units) :
    Conserves net source sink limit next where
  size := step.size
  nonneg := by
    have before := conserves.nonneg
    have positive := step.positive
    have flow := step.flow
    omega
  capped bound cap := step.flow ▸ step.capped bound cap
  balance v := by
    have separate := Separate.of_walk step.walk step.simple
    rw [step.network, separate.exactBalance_pushEach step.walk, conserves.balance, step.flow]
    split <;> split <;> omega

/-- What each augmentation keeps, the solve keeps however it ends. The searches that it is allotted
    are never used up. -/
theorem Conserves.pursue (apart : source ≠ sink) (budget : Nat)
    (conserves : Conserves net source sink limit course)
    (enough : course.network.solveBudget source ≤ budget) :
    ∃ last ended, course.pursue source sink limit budget = (last, ended) ∧
      Conserves net source sink limit last ∧
      ∀ fault, ended = .error fault → fault = .state .endlessPath ∨ fault = .strayTrail := by
  induction budget generalizing course with
  | zero => exact absurd enough (Nat.not_succ_le_zero _)
  | succ budget ih =>
      have goes := course.goes source sink limit conserves.size
      unfold Course.pursue
      generalize course.advance source sink limit = ended at goes
      cases goes with
      | rests => exact ⟨course, _, rfl, conserves, fun fault ended => by cases ended⟩
      | sends step =>
          apply ih (conserves.sends step)
          have spent := solveBudget_pushEach_lt step.walk step.simple apart step.positive
          rw [step.network]
          omega
      | tooLong => exact ⟨course, _, rfl, conserves, fun fault ended => by cases ended; exact .inl rfl⟩
      | astray => exact ⟨course, _, rfl, conserves, fun fault ended => by cases ended; exact .inr rfl⟩

theorem conserves_course (net : Network n) (source sink : Fin n) (options : Options)
    (cap : ∀ bound, options.maxFlow = some bound → 0 ≤ bound) :
    Conserves net source sink options.maxFlow (net.course source options) where
  size := net.size_course source options
  nonneg := Int.le_refl 0
  capped := cap
  balance v := by simp [Network.course]

end Course

/-- Between source and sink a run has moved what its augmentations add up to, and it answers with
    that. If it has found fault with an argument it has moved nothing. -/
structure Run.Conserves (net : Network n) (source sink : Fin n) (limit : Option Int) (run : Run n) :
    Prop where
  performed : net.perform run.augmentations = .ok run.network
  nonneg : 0 ≤ unitsOf run.augmentations
  supplied : run.network.exactBalance source = net.exactBalance source - unitsOf run.augmentations
  received : run.network.exactBalance sink = net.exactBalance sink + unitsOf run.augmentations
  kept : ∀ v, v ≠ source → v ≠ sink → run.network.exactBalance v = net.exactBalance v
  answered : ∀ answer, run.outcome = .ok answer → answer.flow = unitsOf run.augmentations
  refused : ∀ cause, run.outcome = .error (.argument cause) → unitsOf run.augmentations = 0
  capped : (∀ cause, run.outcome ≠ .error (.argument cause)) →
    ∀ bound, limit = some bound → unitsOf run.augmentations ≤ bound
  ended : run.outcome ≠ .error .endless

namespace Network

variable {net : Network n} {source sink : Fin n} {options : Options}

theorem exists_course (net : Network n) (apart : source ≠ sink)
    (cap : ∀ bound, options.maxFlow = some bound → 0 ≤ bound) :
    ∃ last, Course.Conserves net source sink options.maxFlow last ∧ last.Accounts net ∧
      (net.solveBetween source sink options).network = last.network ∧
      (net.solveBetween source sink options).augmentations = last.augmentations ∧
      ∀ fault, (net.solveBetween source sink options).outcome = .error fault →
        fault ≠ .endless ∧ ∀ cause, fault ≠ .argument cause := by
  obtain ⟨network, augmentations, outcome⟩ := net.solveBetween_fields source sink options
  have accounts := net.accounts_pursue source sink options (net.solveBudget source)
  obtain ⟨last, ended, pursued, conserves, faults⟩ :=
    (Course.conserves_course net source sink options cap).pursue apart (net.solveBudget source)
      (Nat.le_refl _)
  rw [pursued] at accounts
  rw [pursued] at network augmentations outcome
  refine ⟨last, conserves, accounts, network, augmentations, fun fault failed => ?_⟩
  rw [outcome] at failed
  cases fails_of_bind_error failed with
  | inl failed => rcases faults fault failed with rfl | rfl <;> exact ⟨nofun, nofun⟩
  | inr failed =>
      obtain ⟨_, failed⟩ := failed
      cases verify : options.verifyConservation with
      | false =>
          rw [verify] at failed
          cases failed
      | true =>
          rw [verify, if_pos rfl] at failed
          cases verdict : (last.network.verifyConservation source.val sink.val last.flow).2 with
          | ok _ =>
              rw [verdict] at failed
              cases failed
          | error complaint =>
              rw [verdict] at failed
              cases failed
              rcases verifyConservation_fault verdict with rfl | ⟨_, rfl⟩ <;> exact ⟨nofun, nofun⟩

theorem solve_refused {source sink : Int} {cause : BadArgument}
    (refused : (net.solve source sink options).outcome = .error (.argument cause)) :
    (net.solve source sink options).network = net ∧
      (net.solve source sink options).augmentations = [] := by
  rcases net.solve_turned_down_or_searches source sink options with
    ⟨network, augmentations, _⟩ | ⟨s, t, apart, rfl, rfl, silent, searches⟩
  · exact ⟨network, augmentations⟩
  · exfalso
    obtain ⟨_, _, _, _, _, faults⟩ :=
      net.exists_course apart fun _ => cap_of_objection?_eq_none silent
    rw [searches] at refused
    exact (faults _ refused).2 cause rfl

theorem conserves_of_objection {fault : Fault} {journal : Journal}
    (objects : net.objection? options = some (fault, journal)) :
    ({ network := net, journal, outcome := .error fault } : Run n).Conserves net source sink
      options.maxFlow where
  performed := rfl
  nonneg := Int.le_refl 0
  supplied := (Int.sub_zero _).symm
  received := (Int.add_zero _).symm
  kept _ _ _ := rfl
  answered _ answered := by cases answered
  refused _ _ := rfl
  capped valid bound given := by
    cases net.limit_cases options with
    | inl cap => exact cap bound given
    | inr negative =>
        rw [objects] at negative
        cases negative
        exact absurd rfl (valid _)
  ended endless := by
    cases endless
    rcases objection?_fault objects with ⟨_, same⟩ | ⟨_, same⟩ <;> cases same

theorem solveBetween_conserves (net : Network n) (apart : source ≠ sink)
    (cap : ∀ bound, options.maxFlow = some bound → 0 ≤ bound) :
    (net.solveBetween source sink options).Conserves net source sink options.maxFlow := by
  obtain ⟨last, conserves, accounts, network, augmentations, faults⟩ := net.exists_course apart cap
  have run := net.solveBetween_accounts source sink options
  have sent : last.flow = unitsOf (net.solveBetween source sink options).augmentations :=
    accounts.flow.trans (congrArg unitsOf augmentations.symm)
  have balance := conserves.balance
  rw [← network, sent] at balance
  exact {
    performed := run.performed
    nonneg := sent ▸ conserves.nonneg
    supplied := by
      rw [balance, if_pos rfl, if_neg apart.symm]
      omega
    received := by
      rw [balance, if_pos rfl, if_neg apart]
      omega
    kept := fun v behind ahead => by
      rw [balance, if_neg behind.symm, if_neg ahead.symm]
      omega
    answered := fun answer answered => by rw [run.answer answer answered]
    refused := fun cause refused => absurd rfl ((faults _ refused).2 cause)
    capped := fun _ bound given => sent ▸ conserves.capped bound given
    ended := fun endless => (faults _ endless).1 rfl }

/-- From whatever state it begins, and however it ends, a solve takes out of the source what it puts
    into the sink, and leaves all other balances as they are. -/
theorem solve_conserves (net : Network n) (source sink : Fin n) (apart : source ≠ sink)
    (options : Options) :
    (net.solve source.val sink.val options).Conserves net source sink options.maxFlow := by
  rw [net.solve_eq apart]
  cases objects : net.objection? options with
  | some complaint => exact conserves_of_objection objects
  | none => exact net.solveBetween_conserves apart fun _ => cap_of_objection?_eq_none objects

/-- A unit leaves a source that had sent one before. The check of the balances then complains, but
    the unit has been moved. -/
theorem solve_conserves_halfUsed :
    (halfUsed.solve 0 2 { verifyConservation := true }).outcome = .error (.state (.unbalanced 0)) ∧
      (halfUsed.solve 0 2 { verifyConservation := true }).Conserves halfUsed 0 2 none :=
  ⟨by decide +kernel, solve_conserves halfUsed 0 2 (by decide) { verifyConservation := true }⟩

end Network

end MinCostFlow
