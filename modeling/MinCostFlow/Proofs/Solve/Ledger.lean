import MinCostFlow.Network.Flow
import MinCostFlow.Solver

/-! # The account that a solve gives of itself

A solve keeps a list of its augmentations, and that list accounts for everything it has done.
Whoever sends the units along the trails once more ends up with the same network, and the units
and their prices add up to the flow and the cost of the answer. This holds of every solve,
however it ends and whatever the network carried before.
-/

namespace MinCostFlow

variable {n : Nat}

theorem exists_of_bind_ok {ε α β : Type} {first : Except ε α} {next : α → Except ε β} {last : β}
    (done : first >>= next = .ok last) : ∃ middle, first = .ok middle ∧ next middle = .ok last := by
  cases first with
  | error fault => cases done
  | ok middle => exact ⟨middle, rfl, done⟩

theorem fails_of_bind_error {ε α β : Type} {first : Except ε α} {next : α → Except ε β} {fault : ε}
    (failed : first >>= next = .error fault) :
    first = .error fault ∨ ∃ middle, next middle = .error fault := by
  cases first with
  | error _ =>
      cases failed
      exact .inl rfl
  | ok middle => exact .inr ⟨middle, failed⟩

theorem foldlM_keeps {ε α σ : Type} {motive : σ → Prop} {step : σ → α → Except ε σ}
    (keeps : ∀ state item next, motive state → step state item = .ok next → motive next)
    {items : List α} {start last : σ} (holds : motive start)
    (folded : items.foldlM step start = .ok last) : motive last := by
  induction items generalizing start with
  | nil =>
      cases folded
      exact holds
  | cons item rest ih =>
      rw [List.foldlM_cons] at folded
      obtain ⟨middle, first, folded⟩ := exists_of_bind_ok folded
      exact ih (keeps start item middle holds first) folded

/-- How many units augmentations send. -/
def unitsOf (augmentations : List Augmentation) : Int := (augmentations.map Augmentation.units).sum

/-- What augmentations cost. -/
def costOf (augmentations : List Augmentation) : Int :=
  (augmentations.map fun sent => sent.units * sent.unitCost).sum

@[simp] theorem unitsOf_nil : unitsOf [] = 0 := rfl

@[simp] theorem unitsOf_cons (sent : Augmentation) (rest : List Augmentation) :
    unitsOf (sent :: rest) = sent.units + unitsOf rest := rfl

@[simp] theorem costOf_nil : costOf [] = 0 := rfl

@[simp] theorem costOf_cons (sent : Augmentation) (rest : List Augmentation) :
    costOf (sent :: rest) = sent.units * sent.unitCost + costOf rest := rfl

namespace Network

/-- Send the units of augmentations along their trails, one augmentation after the other. -/
def perform (net : Network n) (augmentations : List Augmentation) : Except Fault (Network n) :=
  augmentations.foldlM
    (fun net sent => sent.trail.foldlM (fun net id => net.push id sent.units) net) net

variable {net next : Network n}

theorem sameArcs_of_foldlM_push {ids : List ArcId} {amount : Int}
    (pushed : ids.foldlM (fun net id => net.push id amount) net = .ok next) : SameArcs next net := by
  refine foldlM_keeps (motive := fun last => SameArcs last net) (fun state id last same pushed => ?_)
    rfl pushed
  obtain ⟨_, face, _, _, rfl⟩ := push_eq_ok_iff.mp pushed
  exact (sameArcs_pushAlong state face amount).trans same

theorem sameArcs_of_perform {augmentations : List Augmentation}
    (performed : net.perform augmentations = .ok next) : SameArcs next net :=
  foldlM_keeps (motive := fun last => SameArcs last net)
    (fun _ _ _ same pushed => (sameArcs_of_foldlM_push pushed).trans same) rfl performed

theorem perform_append (net : Network n) (front rest : List Augmentation) :
    net.perform (front ++ rest) = net.perform front >>= fun next => next.perform rest :=
  List.foldlM_append

end Network

namespace Course

variable {net : Network n} {source sink : Fin n} {limit : Option Int} {course next : Course n}

/-- The course after one more augmentation. -/
structure Books (course next : Course n) (sent : Augmentation) : Prop where
  network : sent.trail.foldlM (fun net id => net.push id sent.units) course.network = .ok next.network
  flow : next.flow = course.flow + sent.units
  cost : next.cost = course.cost + sent.units * sent.unitCost
  logged : next.augmentations = course.augmentations ++ [sent]

/-- All that sending flow along a path changes. -/
theorem books_of_augment {found : Discovery n} {units : Int}
    (augmented : course.augment source sink found units = .ok next) :
    ∃ trail, found.reach.trail source.val sink.val = .ok trail ∧
      course.Books next { trail, units, unitCost := (found.reach.labels.entry sink).pathCost } ∧
      next.potential = found.potential ∧ next.stopAtSink = true ∧
      next.journal = course.journal ++ [.augmented units (found.reach.labels.entry sink).pathCost
        next.augmentations.length next.flow next.cost] := by
  obtain ⟨trail, followed, augmented⟩ := exists_of_bind_ok augmented
  obtain ⟨network, pushed, augmented⟩ := exists_of_bind_ok augmented
  cases augmented
  exact ⟨trail, followed, ⟨pushed, rfl, rfl, rfl⟩, rfl, rfl, rfl⟩

theorem advance_eq (course : Course n) (source sink : Fin n) (limit : Option Int) :
    course.advance source sink limit =
      course.discover source sink >>= fun found? =>
        match found? with
        | none => .ok none
        | some found =>
          if course.allowance limit (found.reach.labels.entry sink).bottleneck ≤ 0 then .ok none
          else some <$> course.augment source sink found
            (course.allowance limit (found.reach.labels.entry sink).bottleneck) :=
  rfl

theorem augment_of_advance (advanced : course.advance source sink limit = .ok (some next)) :
    ∃ found, course.discover source sink = .ok (some found) ∧
      0 < course.allowance limit (found.reach.labels.entry sink).bottleneck ∧
      course.augment source sink found
        (course.allowance limit (found.reach.labels.entry sink).bottleneck) = .ok next := by
  obtain ⟨found?, discovered, advanced⟩ := exists_of_bind_ok advanced
  cases found? with
  | none => cases advanced
  | some found =>
      dsimp only at advanced
      split at advanced
      · cases advanced
      · rename_i something
        refine ⟨found, discovered, Int.not_le.mp something, ?_⟩
        cases augmented : course.augment source sink found
            (course.allowance limit (found.reach.labels.entry sink).bottleneck) with
        | error fault =>
            rw [augmented] at advanced
            cases advanced
        | ok last =>
            rw [augmented] at advanced
            cases advanced
            rfl

/-- The augmentations of a course account for its network, its flow and its cost. -/
structure Accounts (net : Network n) (course : Course n) : Prop where
  performed : net.perform course.augmentations = .ok course.network
  positive : ∀ sent ∈ course.augmentations, 0 < sent.units
  flow : course.flow = unitsOf course.augmentations
  cost : course.cost = costOf course.augmentations

theorem Accounts.books {sent : Augmentation} (accounts : course.Accounts net)
    (books : course.Books next sent) (positive : 0 < sent.units) : next.Accounts net where
  performed := by
    rw [books.logged, Network.perform_append, accounts.performed]
    simp only [bind, Except.bind, Network.perform, List.foldlM_cons, books.network, List.foldlM_nil,
      pure, Except.pure]
  positive := by
    rw [books.logged]
    exact List.forall_mem_append.mpr ⟨accounts.positive, List.forall_mem_singleton.mpr positive⟩
  flow := by
    rw [books.flow, books.logged, accounts.flow]
    simp [unitsOf]
  cost := by
    rw [books.cost, books.logged, accounts.cost]
    simp [costOf]

theorem Accounts.of_leads {first last : Course n} (accounts : first.Accounts net)
    (leads : Leads source sink limit first last) : last.Accounts net := by
  induction leads with
  | refl => exact accounts
  | step _ advanced ih =>
      obtain ⟨found, _, positive, augmented⟩ := augment_of_advance advanced
      obtain ⟨trail, _, books, _⟩ := books_of_augment augmented
      exact ih.books books positive

end Course

/-- The augmentations of a run account for its network and for its answer. -/
structure Run.Accounts (net : Network n) (run : Run n) : Prop where
  performed : net.perform run.augmentations = .ok run.network
  positive : ∀ sent ∈ run.augmentations, 0 < sent.units
  answer : ∀ answer, run.outcome = .ok answer →
    answer = { flow := unitsOf run.augmentations, cost := costOf run.augmentations }

namespace Network

variable {net : Network n} {source sink : Fin n} {options : Options}

/-- The searches of a solve leave their course behind; the check after them only decides about
    the answer. -/
theorem solveBetween_fields (net : Network n) (source sink : Fin n) (options : Options) :
    let pursued :=
      (net.course source options).pursue source sink options.maxFlow (net.solveBudget source)
    (net.solveBetween source sink options).network = pursued.1.network ∧
      (net.solveBetween source sink options).augmentations = pursued.1.augmentations ∧
      (net.solveBetween source sink options).outcome = pursued.2 >>= fun _ =>
        (if options.verifyConservation then
          (pursued.1.network.verifyConservation source.val sink.val pursued.1.flow).2 else .ok ()).map
            fun _ => { flow := pursued.1.flow, cost := pursued.1.cost } := by
  dsimp only
  rw [solveBetween]
  generalize (net.course source options).pursue source sink options.maxFlow (net.solveBudget source) =
    pursued
  obtain ⟨last, ended⟩ := pursued
  cases ended with
  | error fault => exact ⟨rfl, rfl, rfl⟩
  | ok finished =>
      dsimp only
      cases options.verifyConservation with
      | false => exact ⟨rfl, rfl, rfl⟩
      | true =>
          simp only [if_true]
          cases (last.network.verifyConservation source.val sink.val last.flow).2 with
          | error fault => exact ⟨rfl, rfl, rfl⟩
          | ok verdict => exact ⟨rfl, rfl, rfl⟩

theorem course_accounts (net : Network n) (source : Fin n) (options : Options) :
    (net.course source options).Accounts net :=
  ⟨rfl, by simp [course], rfl, rfl⟩

theorem accounts_pursue (net : Network n) (source sink : Fin n) (options : Options) (budget : Nat) :
    ((net.course source options).pursue source sink options.maxFlow budget).1.Accounts net :=
  (net.course_accounts source options).of_leads
    (Course.leads_pursue source sink options.maxFlow budget _)

theorem solveBetween_accounts (net : Network n) (source sink : Fin n) (options : Options) :
    (net.solveBetween source sink options).Accounts net := by
  obtain ⟨network, augmentations, outcome⟩ := net.solveBetween_fields source sink options
  have accounts := net.accounts_pursue source sink options (net.solveBudget source)
  refine ⟨?_, ?_, fun answer answered => ?_⟩
  · rw [network, augmentations]
    exact accounts.performed
  · rw [augmentations]
    exact accounts.positive
  · rw [augmentations, ← accounts.flow, ← accounts.cost]
    rw [outcome] at answered
    obtain ⟨_, ended, answered⟩ := exists_of_bind_ok answered
    generalize (if options.verifyConservation then _ else (.ok () : Except Fault Unit)) = verdict
      at answered
    cases verdict with
    | error fault => cases answered
    | ok _ =>
        cases answered
        rfl

/-- How a solve can go: it is turned down or has nothing to do, or it searches. -/
theorem solve_turned_down_or_searches (net : Network n) (source sink : Int) (options : Options) :
    ((net.solve source sink options).network = net ∧
      (net.solve source sink options).augmentations = [] ∧
      ∀ answer, (net.solve source sink options).outcome = .ok answer →
        answer = { flow := 0, cost := 0 }) ∨
    ∃ s t : Fin n, s ≠ t ∧ source = s.val ∧ sink = t.val ∧ net.objection? options = none ∧
      net.solve source sink options = net.solveBetween s t options := by
  rw [solve]
  split
  · rename_i inside
    split
    · exact .inl ⟨rfl, rfl, fun answer answered => by cases answered; rfl⟩
    · rename_i apart
      cases silent : net.objection? options with
      | some complaint =>
          exact .inl ⟨rfl, rfl, fun answer answered => by cases answered⟩
      | none =>
          have source_eq : source = (Position.front inside.1).val := by
            simp only [Position.front]
            omega
          have sink_eq : sink = (Position.front inside.2).val := by
            simp only [Position.front]
            omega
          refine .inr ⟨_, _, fun same => apart ?_, source_eq, sink_eq, rfl, rfl⟩
          exact source_eq.trans ((congrArg (fun v : Fin n => (v.val : Int)) same).trans sink_eq.symm)
  · exact .inl ⟨rfl, rfl, fun answer answered => by cases answered⟩

theorem solve_accounts (net : Network n) (source sink : Int) (options : Options) :
    (net.solve source sink options).Accounts net := by
  rcases net.solve_turned_down_or_searches source sink options with
    ⟨network, augmentations, answer⟩ | ⟨s, t, _, _, _, _, searches⟩
  · refine ⟨?_, ?_, ?_⟩
    · rw [augmentations, network]
      rfl
    · rw [augmentations]
      simp
    · rw [augmentations]
      exact answer
  · rw [searches]
    exact net.solveBetween_accounts s t options

theorem sameArcs_solve (net : Network n) (source sink : Int) (options : Options) :
    SameArcs (net.solve source sink options).network net :=
  sameArcs_of_perform (net.solve_accounts source sink options).performed

end Network

end MinCostFlow
