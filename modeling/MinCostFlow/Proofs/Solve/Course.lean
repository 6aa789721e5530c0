import MinCostFlow.Course
import MinCostFlow.Proofs.Flow.Duality
import MinCostFlow.Proofs.Search.Prices

/-! # What a solve keeps from search to search

A solve never leaves the region that its source reached at the outset: faces that appear run
against faces of routes, and routes stay inside. Within the region the prices are fair as soon
as searches may stop at the sink, and outside of it nothing is ever touched. So no search
after the first one can come across a closed walk of negative cost, the searches go on until
the sink is cut off or the cap is met, and each of them uses up room out of the source.
-/

namespace MinCostFlow

open Network Frontier

variable {n : Nat}

theorem leastRoom_le {faces : List (Residual n)} {face : Residual n} (member : face ∈ faces) :
    leastRoom faces ≤ face.room := by
  induction faces with
  | nil => simp at member
  | cons first rest ih =>
      rcases List.mem_cons.mp member with rfl | member
      · exact min_le_left _ _
      · exact (min_le_right _ _).trans (ih member)

/-- Fair prices stay fair when units are sent along faces that they make tight. -/
theorem Potential.Fair.pushEach {net : Network n} {potential : Potential} {region : Fin n → Prop}
    {faces : List (Residual n)} {amount : Int} (fair : potential.Fair net region)
    (tight : ∀ face ∈ faces, face.reducedCost potential = 0) (separate : net.Separate faces)
    (nonneg : 0 ≤ amount) : potential.Fair (net.pushEach faces amount) region := by
  intro face usable inside
  rcases separate.usable_of_pushEach nonneg usable with
    ⟨before, usable, tail, head, cost⟩ | ⟨other, member, tail, head, cost⟩
  · have fair := fair before usable (tail ▸ inside)
    rw [Residual.reducedCost] at fair ⊢
    rwa [tail, head, cost]
  · have tight := tight other member
    rw [Residual.reducedCost] at tight ⊢
    rw [tail, head, cost]
    omega

namespace Network

variable {net start other : Network n} {source sink : Fin n}

theorem liveMagnitude_eq_of_sameArcs (same : SameArcs other net) :
    other.liveMagnitude = net.liveMagnitude := by
  have drained : ∀ network : Network n, network.liveMagnitude = network.reset.liveMagnitude := by
    intro network
    simp only [liveMagnitude, reset, List.map_map]
    rfl
  rw [drained other, same, ← drained]

theorem ends_of_sameArcs (same : SameArcs other net) {face : Residual n}
    (member : face ∈ other.residuals) :
    ∃ before, net.arcs[face.arc]? = some before ∧
      ((before.tail = face.tail ∧ before.head = face.head) ∨
        before.tail = face.head ∧ before.head = face.tail) := by
  obtain ⟨arc, found, side⟩ := arc_of_mem member
  obtain ⟨before, there, tail, head, _⟩ := getElem?_of_sameArcs same found
  refine ⟨before, there, ?_⟩
  rcases side with side | side <;> rw [side, tail, head]
  · exact .inl ⟨rfl, rfl⟩
  · exact .inr ⟨rfl, rfl⟩

/-- Two networks agree outside of a region. -/
def AgreeOutside (region : Fin n → Prop) (left right : Network n) : Prop :=
  ∀ (position : Nat) (arc : Arc n), left.arcs[position]? = some arc →
    ¬ (region arc.tail ∧ region arc.head) → right.arcs[position]? = some arc

theorem AgreeOutside.usable {region : Fin n → Prop} (agree : AgreeOutside region start net)
    (same : SameArcs net start) {face : Residual n} (usable : net.Usable face)
    (outside : ¬ (region face.tail ∧ region face.head)) : start.Usable face := by
  obtain ⟨before, there, ends⟩ := ends_of_sameArcs same usable.1
  obtain ⟨arc, found, side⟩ := arc_of_mem usable.1
  have kept := agree face.arc before there (by
    rcases ends with ⟨tail, head⟩ | ⟨tail, head⟩ <;> rw [tail, head] <;> tauto)
  obtain rfl : arc = before := by
    rw [found] at kept
    exact Option.some.inj kept
  exact ⟨mem_residuals.mpr ⟨face.arc, arc, there, side⟩, usable.2⟩

/-- No usable face leads out of what the source reached at the outset. -/
theorem AgreeOutside.closed (agree : AgreeOutside (Reaches start.Usable source) start net)
    (same : SameArcs net start) (face : Residual n) (usable : net.Usable face)
    (inside : Reaches start.Usable source face.tail) : Reaches start.Usable source face.head := by
  by_contra outside
  have before := agree.usable same usable fun both => outside both.2
  exact outside (inside.trans ⟨[face], .single before⟩)

end Network

namespace Course

variable {start : Network n} {source sink : Fin n} {limit : Option Int} {course next : Course n}

/-- How a solve that began with `start` stands between two searches. -/
structure Sound (start : Network n) (source sink : Fin n) (limit : Option Int) (course : Course n) :
    Prop where
  same : SameArcs course.network start
  within : course.network.WithinCapacity
  agree : AgreeOutside (Reaches start.Usable source) start course.network
  balance : ∀ v, course.network.exactBalance v = start.exactBalance v +
    (if sink = v then course.flow else 0) - (if source = v then course.flow else 0)
  cost : course.network.totalCost = start.totalCost + course.cost
  nonneg : 0 ≤ course.flow
  capped : ∀ bound, limit = some bound → course.flow ≤ bound
  size : course.potential.size = n
  anchored : course.potential.price source = 0
  bounded : -(start.liveMagnitude : Int) ≤ course.potential.price sink
  ready : course.stopAtSink = true →
    course.potential.Fair course.network (Reaches start.Usable source)
  unready : course.stopAtSink = false →
    course.network = start ∧ ∀ v : Fin n, course.potential.price v = 0

namespace Sound

theorem closed (sound : Sound start source sink limit course) (face : Residual n)
    (usable : course.network.Usable face) (inside : Reaches start.Usable source face.tail) :
    Reaches start.Usable source face.head :=
  sound.agree.closed sound.same face usable inside

theorem exists_fair (sound : Sound start source sink limit course) (harmless : Harmless start source) :
    ∃ potential : Potential, potential.Fair course.network (Reaches start.Usable source) := by
  cases stop : course.stopAtSink with
  | true => exact ⟨course.potential, sound.ready stop⟩
  | false =>
      obtain ⟨unchanged, _⟩ := sound.unready stop
      have inner : ∀ u, ¬ NegativeCycleAt
          (fun face => course.network.Usable face ∧ Reaches start.Usable source face.tail) u := by
        intro u negative
        obtain ⟨faces, walk, cost⟩ := negative
        cases walk with
        | nil => simp [walkCost] at cost
        | cons first rest =>
            refine harmless _ first.2 ⟨_, ?_, cost⟩
            exact (Walk.cons first rest).mono fun _ allowed => unchanged ▸ allowed.1
      obtain ⟨potential, fair⟩ := exists_fair_prices sound.within (fun _ allowed => allowed.1) inner
      exact ⟨potential, fun face usable inside => fair face ⟨usable, inside⟩⟩

theorem harmless (sound : Sound start source sink limit course) (harmless : Harmless start source) :
    Harmless course.network source := by
  obtain ⟨potential, fair⟩ := sound.exists_fair harmless
  refine (fair.mono fun v reached => ?_).harmless
  obtain ⟨_, walk⟩ := reached
  exact walk.mem_of_closed sound.closed (reaches_self _ _)

theorem exists_finished (sound : Sound start source sink limit course)
    (harmless : Harmless start source) :
    ∃ last stopped way,
      course.network.search source.val sink.val course.potential course.stopAtSink =
        .ok (reachOf sink stopped last) ∧
      Finished course.network course.potential
        (if course.stopAtSink then some (sink.val : Int) else none) source way stopped last :=
  search_finished sound.size (sound.harmless harmless) sink course.stopAtSink

theorem natAbs_walkCost_le (sound : Sound start source sink limit course) {v : Fin n}
    {faces : List (Residual n)} (walk : Walk course.network.Usable source faces v)
    (simple : (visits source faces).Nodup) : (walkCost faces).natAbs ≤ start.liveMagnitude :=
  liveMagnitude_eq_of_sameArcs sound.same ▸ walk.natAbs_walkCost_le sound.within simple

/-- Walks to the sink, and before prices are fair all walks, stay within the horizon. -/
theorem reducedWalkCost_lt (sound : Sound start source sink limit course)
    (small : 2 * (start.liveMagnitude : Int) < horizon) {v : Fin n} {front rest : List (Residual n)}
    (walk : Walk course.network.Usable source (front ++ rest) v)
    (simple : (visits source (front ++ rest)).Nodup)
    (relevant : course.stopAtSink = true → v = sink) :
    reducedWalkCost course.potential front < horizon := by
  cases stop : course.stopAtSink with
  | true =>
      obtain rfl := relevant stop
      have fair : ∀ face ∈ front ++ rest, 0 ≤ face.reducedCost course.potential := fun face member =>
        sound.ready stop face (walk.allowed_of_mem member)
          (walk.tail_mem_of_closed sound.closed (reaches_self _ _) member)
      obtain ⟨x, first, last⟩ := walk.split
      have remains := last.reducedWalkCost_nonneg fun face member =>
        fair face (List.mem_append_right _ member)
      have whole := walk.reducedWalkCost_eq course.potential
      have bound := sound.natAbs_walkCost_le walk simple
      have anchored := sound.anchored
      have bounded := sound.bounded
      rw [reducedWalkCost_append] at whole
      omega
  | false =>
      obtain ⟨x, first, _⟩ := walk.split
      have free := (sound.unready stop).2
      have bound := sound.natAbs_walkCost_le first (nodup_visits_left simple)
      rw [first.reducedWalkCost_eq, free, free]
      omega

/-- What can be reached is reached: the sink by every search, any node by one to the end. -/
theorem labelled_of_reaches (sound : Sound start source sink limit course)
    (small : 2 * (start.liveMagnitude : Int) < horizon) {last : Frontier n} {stopped : Bool}
    {way : Fin n → List (Residual n)}
    (finished : Finished course.network course.potential
      (if course.stopAtSink then some (sink.val : Int) else none) source way stopped last)
    {v : Fin n} (reached : Reaches course.network.Usable source v)
    (relevant : course.stopAtSink = true → v = sink) : last.dist v < horizon := by
  by_contra unlabelled
  have drained : stopped = false := by
    have same := finished.stopped_eq
    cases stop : course.stopAtSink with
    | true =>
        obtain rfl := relevant stop
        simpa [stop, unlabelled] using same
    | false => simpa [stop] using same
  subst drained
  obtain ⟨_, walk⟩ := reached
  obtain ⟨short, walk, simple, _⟩ := walk.exists_simple
  have near : ∀ front rest, short = front ++ rest →
      reducedWalkCost course.potential front < horizon := by
    rintro front rest rfl
    exact sound.reducedWalkCost_lt small walk simple relevant
  have known := finished.tidy.dist_le_of_walk (finished.drained rfl) walk near
  have whole := near short [] (List.append_nil _).symm
  omega

end Sound

/-- One augmentation: `units` are sent along `faces`, and the prices become fair and make the
    faces tight. -/
structure Extends (region : Fin n → Prop) (source sink : Fin n) (limit : Option Int)
    (course next : Course n) (faces : List (Residual n)) (units : Int) : Prop where
  walk : Walk course.network.Usable source faces sink
  simple : (visits source faces).Nodup
  units_eq : units = course.allowance limit (leastRoom faces)
  positive : 0 < units
  logged : ∃ ids, List.Forall₂ course.network.Names ids faces ∧
    next.augmentations = course.augmentations ++ [{ trail := ids, units, unitCost := walkCost faces }]
  network : next.network = course.network.pushEach faces units
  flow : next.flow = course.flow + units
  cost : next.cost = course.cost + units * walkCost faces
  stop : next.stopAtSink = true
  size : next.potential.size = n
  anchored : next.potential.price source = course.potential.price source
  fair : next.potential.Fair course.network region
  tight : ∀ face ∈ faces, face.reducedCost next.potential = 0

/-- How a step of a solve can end that does not fail. -/
inductive Advances (region : Fin n → Prop) (source sink : Fin n) (limit : Option Int)
    (course : Course n) : Except Fault (Option (Course n)) → Prop where
  | cutOff : ¬ Reaches course.network.Usable source sink →
    Advances region source sink limit course (.ok none)
  | capped : limit = some course.flow → Advances region source sink limit course (.ok none)
  | more {next : Course n} {faces : List (Residual n)} {units : Int} :
    Extends region source sink limit course next faces units →
    Advances region source sink limit course (.ok (some next))

theorem augment_eq (found : Discovery n) (units : Int) {faces : List (Residual n)} {ids : List ArcId}
    (trail : found.reach.trail source.val sink.val = .ok ids)
    (named : List.Forall₂ course.network.Names ids faces) (distinct : (faces.map Residual.arc).Nodup) :
    let unitCost := (found.reach.labels.entry sink).pathCost
    ∃ next, course.augment source sink found units = .ok next ∧
      next.network = course.network.pushEach faces units ∧ next.flow = course.flow + units ∧
      next.cost = course.cost + units * unitCost ∧ next.stopAtSink = true ∧
      next.potential = found.potential ∧
      next.augmentations = course.augmentations ++ [{ trail := ids, units, unitCost }] := by
  rw [augment, trail]
  simp only [bind, Except.bind]
  rw [foldlM_push named distinct]
  exact ⟨_, rfl, rfl, rfl, rfl, rfl, rfl, rfl⟩

theorem Sound.limit_eq_of_allowance (sound : Sound start source sink limit course) {room : Int}
    (positive : 1 ≤ room) (nothing : course.allowance limit room ≤ 0) : limit = some course.flow := by
  cases cap : limit with
  | none =>
      simp only [allowance, cap] at nothing
      omega
  | some bound =>
      have capped := sound.capped bound cap
      simp only [allowance, cap] at nothing
      congr 1
      omega

/-- A search that has reached the sink over a route, and prices that are fair in a region and make
    the route tight. -/
structure Discovers (region : Fin n → Prop) (source sink : Fin n) (course : Course n)
    (found : Discovery n) (faces : List (Residual n)) : Prop where
  route : found.reach.Route course.network course.potential source sink faces
  size : found.potential.size = n
  anchored : found.potential.price source = course.potential.price source
  fair : found.potential.Fair course.network region
  tight : ∀ face ∈ faces, face.reducedCost found.potential = 0

theorem Sound.discover_of_labelled {region : Fin n → Prop} {last : Frontier n} {stopped : Bool}
    {way : Fin n → List (Residual n)} (sound : Sound start source sink limit course)
    (searched : course.network.search source.val sink.val course.potential course.stopAtSink =
      .ok (reachOf sink stopped last))
    (finished : Finished course.network course.potential
      (if course.stopAtSink then some (sink.val : Int) else none) source way stopped last)
    (labelled : last.dist sink < horizon) (begins : region source)
    (closed : ∀ face, course.network.Usable face → region face.tail → region face.head)
    (fair : course.stopAtSink = true → course.potential.Fair course.network region)
    (known : course.stopAtSink = false → ∀ v, region v → last.dist v < horizon) :
    ∃ found, course.discover source sink = .ok (some found) ∧
      Discovers region source sink course found (way sink) := by
  have reached : (reachOf sink stopped last).reachedSink = true :=
    decide_eq_true ((finished.dist_ne_horizon_iff sink).mpr labelled)
  obtain ⟨raised, lifted, size, fair, tight, anchored⟩ :=
    finished.exists_raised labelled sound.size begins closed fair known
  have raises : course.potential.raise (reachOf sink stopped last).dist sink.val
      (reachOf sink stopped last).stoppedAtSink = .ok raised := lifted
  refine ⟨{ reach := reachOf sink stopped last, potential := raised }, ?_, {
    route := route_of_finished finished labelled
    size, anchored, fair, tight }⟩
  rw [discover, searched]
  simp only [bind, Except.bind, reached, if_true, raises, pure, Except.pure]

theorem Sound.advance_of_discovers {region : Fin n → Prop} {found : Discovery n}
    {faces : List (Residual n)} (sound : Sound start source sink limit course)
    (discovered : course.discover source sink = .ok (some found))
    (discovers : Discovers region source sink course found faces) :
    (limit = some course.flow ∧ course.advance source sink limit = .ok none) ∨
      ∃ next units, course.advance source sink limit = .ok (some next) ∧
        Extends region source sink limit course next faces units := by
  have route := discovers.route
  obtain ⟨ids, trail, named⟩ := route.trail
  rw [advance, discovered]
  simp only [bind, Except.bind, pure, Except.pure]
  rw [route.describes.bottleneck]
  split
  · rename_i nothing
    have room := one_le_leastRoom fun face member => (route.walk.allowed_of_mem member).2
    exact .inl ⟨sound.limit_eq_of_allowance room nothing, rfl⟩
  · rename_i something
    obtain ⟨next, augmented, network, flow, cost, stop, potential, logged⟩ :=
      augment_eq found (course.allowance limit (leastRoom faces)) trail named
        (route.walk.nodup_arcs route.simple)
    rw [route.describes.pathCost] at cost logged
    rw [augmented]
    exact .inr ⟨next, _, rfl, {
      walk := route.walk
      simple := route.simple
      units_eq := rfl
      positive := Int.not_le.mp something
      logged := ⟨ids, named, logged⟩
      network, flow, cost, stop
      size := potential ▸ discovers.size
      anchored := potential ▸ discovers.anchored
      fair := potential ▸ discovers.fair
      tight := potential ▸ discovers.tight }⟩

theorem Sound.advance_of_labelled {region : Fin n → Prop} {last : Frontier n} {stopped : Bool}
    {way : Fin n → List (Residual n)} (sound : Sound start source sink limit course)
    (searched : course.network.search source.val sink.val course.potential course.stopAtSink =
      .ok (reachOf sink stopped last))
    (finished : Finished course.network course.potential
      (if course.stopAtSink then some (sink.val : Int) else none) source way stopped last)
    (labelled : last.dist sink < horizon) (begins : region source)
    (closed : ∀ face, course.network.Usable face → region face.tail → region face.head)
    (fair : course.stopAtSink = true → course.potential.Fair course.network region)
    (known : course.stopAtSink = false → ∀ v, region v → last.dist v < horizon) :
    (limit = some course.flow ∧ course.advance source sink limit = .ok none) ∨
      ∃ next units, course.advance source sink limit = .ok (some next) ∧
        Extends region source sink limit course next (way sink) units := by
  obtain ⟨found, discovered, discovers⟩ :=
    sound.discover_of_labelled searched finished labelled begins closed fair known
  exact sound.advance_of_discovers discovered discovers

theorem discover_of_unlabelled {last : Frontier n} {stopped : Bool} {way : Fin n → List (Residual n)}
    (searched : course.network.search source.val sink.val course.potential course.stopAtSink =
      .ok (reachOf sink stopped last))
    (finished : Finished course.network course.potential
      (if course.stopAtSink then some (sink.val : Int) else none) source way stopped last)
    (unlabelled : ¬ last.dist sink < horizon) : course.discover source sink = .ok none := by
  have missed : (reachOf sink stopped last).reachedSink = false :=
    decide_eq_false fun reached => unlabelled ((finished.dist_ne_horizon_iff sink).mp reached)
  rw [discover, searched]
  simp only [bind, Except.bind, missed, Bool.false_eq_true, if_false, pure, Except.pure]

theorem advance_of_missed (missed : course.discover source sink = .ok none) :
    course.advance source sink limit = .ok none := by
  rw [advance, missed]
  rfl

theorem advance_of_unlabelled {last : Frontier n} {stopped : Bool} {way : Fin n → List (Residual n)}
    (searched : course.network.search source.val sink.val course.potential course.stopAtSink =
      .ok (reachOf sink stopped last))
    (finished : Finished course.network course.potential
      (if course.stopAtSink then some (sink.val : Int) else none) source way stopped last)
    (unlabelled : ¬ last.dist sink < horizon) : course.advance source sink limit = .ok none :=
  advance_of_missed (discover_of_unlabelled searched finished unlabelled)

theorem Sound.discovers (sound : Sound start source sink limit course)
    (harmless : Harmless start source) (small : 2 * (start.liveMagnitude : Int) < horizon) :
    (course.discover source sink = .ok none ∧ ¬ Reaches course.network.Usable source sink) ∨
      ∃ found faces, course.discover source sink = .ok (some found) ∧
        Discovers (Reaches start.Usable source) source sink course found faces := by
  obtain ⟨last, stopped, way, searched, finished⟩ := sound.exists_finished harmless
  by_cases labelled : last.dist sink < horizon
  · right
    have known : course.stopAtSink = false → ∀ v, Reaches start.Usable source v →
        last.dist v < horizon := by
      intro stop v inside
      refine sound.labelled_of_reaches small finished ?_ (by simp [stop])
      rw [(sound.unready stop).1]
      exact inside
    obtain ⟨found, discovered, discovers⟩ := sound.discover_of_labelled searched finished labelled
      (reaches_self _ _) sound.closed sound.ready known
    exact ⟨found, way sink, discovered, discovers⟩
  · left
    refine ⟨discover_of_unlabelled searched finished labelled, fun reached => ?_⟩
    exact labelled (sound.labelled_of_reaches small finished reached fun _ => rfl)

/-- A step of a sound course does not fail, and ends only when the sink is cut off or the cap
    is met. -/
theorem Sound.advances (sound : Sound start source sink limit course)
    (harmless : Harmless start source) (small : 2 * (start.liveMagnitude : Int) < horizon) :
    Advances (Reaches start.Usable source) source sink limit course
      (course.advance source sink limit) := by
  rcases sound.discovers harmless small with ⟨missed, stuck⟩ | ⟨found, faces, discovered, discovers⟩
  · rw [advance_of_missed missed]
    exact .cutOff stuck
  · rcases sound.advance_of_discovers discovered discovers with
      ⟨met, rests⟩ | ⟨next, units, advanced, step⟩
    · rw [rests]
      exact .capped met
    · rw [advanced]
      exact .more step

namespace Extends

variable {region : Fin n → Prop} {faces : List (Residual n)} {units : Int}

theorem separate (step : Extends region source sink limit course next faces units) :
    course.network.Separate faces :=
  .of_walk step.walk step.simple

theorem walkCost_eq (step : Extends region source sink limit course next faces units) :
    walkCost faces = next.potential.price sink - next.potential.price source := by
  have zero : reducedWalkCost next.potential faces = 0 := by
    apply List.sum_eq_zero
    intro cost member
    obtain ⟨face, inside, rfl⟩ := List.mem_map.mp member
    exact step.tight face inside
  rw [step.walk.reducedWalkCost_eq] at zero
  omega

theorem units_le (step : Extends region source sink limit course next faces units) :
    units ≤ leastRoom faces := by
  rw [step.units_eq]
  unfold allowance
  split
  · exact min_le_left _ _
  · exact Int.le_refl _

theorem flow_le (step : Extends region source sink limit course next faces units) {bound : Int}
    (cap : limit = some bound) : next.flow ≤ bound := by
  have units_eq := step.units_eq
  have flow := step.flow
  rw [cap] at units_eq
  simp only [allowance] at units_eq
  omega

theorem fair_next (step : Extends region source sink limit course next faces units) :
    next.potential.Fair next.network region := by
  rw [step.network]
  exact step.fair.pushEach step.tight step.separate (Int.le_of_lt step.positive)

theorem agree
    (step : Extends (Reaches start.Usable source) source sink limit course next faces units)
    (sound : Sound start source sink limit course) :
    AgreeOutside (Reaches start.Usable source) start next.network := by
  intro position arc found outside
  rw [step.network, Separate.getElem?_pushEach]
  · exact sound.agree position arc found outside
  · intro member
    obtain ⟨face, inside, rfl⟩ := List.mem_map.mp member
    have usable := step.walk.allowed_of_mem inside
    have tail : Reaches start.Usable source face.tail :=
      step.walk.tail_mem_of_closed sound.closed (reaches_self _ _) inside
    have head := sound.closed face usable tail
    obtain ⟨before, there, ends⟩ := ends_of_sameArcs sound.same usable.1
    obtain rfl : arc = before := by
      rw [found] at there
      exact Option.some.inj there
    rcases ends with ⟨same_tail, same_head⟩ | ⟨same_tail, same_head⟩ <;>
      rw [same_tail, same_head] at outside
    · exact outside ⟨tail, head⟩
    · exact outside ⟨head, tail⟩

theorem sound
    (step : Extends (Reaches start.Usable source) source sink limit course next faces units)
    (sound : Sound start source sink limit course) : Sound start source sink limit next where
  same := by
    rw [step.network]
    exact (sameArcs_pushEach _ _ _).trans sound.same
  within := by
    rw [step.network]
    exact step.separate.withinCapacity_pushEach sound.within (Int.le_of_lt step.positive)
      fun face member => step.units_le.trans (leastRoom_le member)
  agree := step.agree sound
  balance v := by
    rw [step.network, step.separate.exactBalance_pushEach step.walk, sound.balance,
      step.flow]
    split <;> split <;> omega
  cost := by
    rw [step.network, step.separate.totalCost_pushEach, sound.cost, step.cost]
    omega
  nonneg := by
    have before := sound.nonneg
    have positive := step.positive
    have flow := step.flow
    omega
  capped _ := step.flow_le
  size := step.size
  anchored := step.anchored.trans sound.anchored
  bounded := by
    have cost := step.walkCost_eq
    have anchored := step.anchored.trans sound.anchored
    have bound := sound.natAbs_walkCost_le step.walk step.simple
    omega
  ready _ := step.fair_next
  unready stop := by
    rw [step.stop] at stop
    simp at stop

end Extends

/-- A solve has come to its end: the sink is cut off, or the cap is met. -/
def Over (source sink : Fin n) (limit : Option Int) (course : Course n) : Prop :=
  ¬ Reaches course.network.Usable source sink ∨ limit = some course.flow

theorem Sound.flow_le (sound : Sound start source sink limit course) (apart : source ≠ sink) :
    course.flow ≤ ((start.out source).map Residual.room).sum := by
  have rooms := sum_room_out_nonneg sound.within source
  rw [sum_room_out, sound.balance, if_pos rfl, if_neg apart.symm,
    capacityOut_eq_of_sameArcs sound.same] at rooms
  rw [sum_room_out]
  omega

/-- What each step keeps, the solve keeps to its end, and it gets there within as many searches as
    there is room out of the source. -/
theorem Sound.pursue_of_steps {motive rested : Course n → Prop} (apart : source ≠ sink)
    (steps : ∀ course, Sound start source sink limit course → motive course →
      (course.advance source sink limit = .ok none ∧ rested course) ∨
        ∃ next faces units, course.advance source sink limit = .ok (some next) ∧
          Extends (Reaches start.Usable source) source sink limit course next faces units ∧
          motive next)
    (budget : Nat) (sound : Sound start source sink limit course) (holds : motive course)
    (enough : ((start.out source).map Residual.room).sum - course.flow < budget) :
    ∃ last, course.pursue source sink limit budget = (last, .ok ()) ∧
      Sound start source sink limit last ∧ motive last ∧ rested last := by
  induction budget generalizing course with
  | zero =>
      have bound := sound.flow_le apart
      omega
  | succ budget ih =>
      unfold Course.pursue
      rcases steps course sound holds with ⟨rests, ended⟩ | ⟨next, faces, units, advanced, step, keeps⟩
      · rw [rests]
        exact ⟨course, rfl, sound, holds, ended⟩
      · rw [advanced]
        apply ih (step.sound sound) keeps
        have flow := step.flow
        have positive := step.positive
        omega

theorem Sound.pursue {motive : Course n → Prop} (apart : source ≠ sink)
    (harmless : Harmless start source) (small : 2 * (start.liveMagnitude : Int) < horizon)
    (keeps : ∀ course next faces units, Sound start source sink limit course → motive course →
      Extends (Reaches start.Usable source) source sink limit course next faces units → motive next)
    (budget : Nat) (sound : Sound start source sink limit course) (holds : motive course)
    (enough : ((start.out source).map Residual.room).sum - course.flow < budget) :
    ∃ last, course.pursue source sink limit budget = (last, .ok ()) ∧
      Sound start source sink limit last ∧ motive last ∧ Over source sink limit last := by
  refine Sound.pursue_of_steps apart (fun course sound holds => ?_) budget sound holds enough
  have advances := sound.advances harmless small
  generalize course.advance source sink limit = ended at advances
  cases advances with
  | cutOff stuck => exact .inl ⟨rfl, .inl stuck⟩
  | capped met => exact .inl ⟨rfl, .inr met⟩
  | more step => exact .inr ⟨_, _, _, rfl, step, keeps _ _ _ _ sound holds step⟩

end Course

end MinCostFlow
