import MinCostFlow.Journal
import MinCostFlow.Search

/-! # A solve between two searches

Each step of a solve searches for one cheapest path and sends flow along it. Potentials
are raised after each search, so that reduced costs stay at least zero and later
searches may stop at the sink.
-/

namespace MinCostFlow

/-- One path and what was sent along it. -/
structure Augmentation where
  trail : List ArcId
  units : Int
  /-- What one unit costs on the path. -/
  unitCost : Int
  deriving Repr, DecidableEq

/-- A solve between two searches. -/
structure Course (n : Nat) where
  network : Network n
  potential : Potential
  /-- Reduced costs are at least zero, so a search may stop at the sink. -/
  stopAtSink : Bool
  flow : Int := 0
  cost : Int := 0
  augmentations : List Augmentation := []
  journal : Journal := []
  deriving Repr, DecidableEq

/-- A search that reached the sink, and the potentials raised by it. -/
structure Discovery (n : Nat) where
  reach : Reach n
  potential : Potential
  deriving Repr, DecidableEq

namespace Course

variable {n : Nat}

/-- Search once, and raise the potentials if the sink was reached. -/
def discover (course : Course n) (source sink : Fin n) : Except Fault (Option (Discovery n)) := do
  let reach ← course.network.search source.val sink.val course.potential course.stopAtSink
  if reach.reachedSink then
    let potential ← course.potential.raise reach.dist sink.val reach.stoppedAtSink
    return some { reach, potential }
  else
    return none

/-- How much may be sent along a path with this bottleneck. -/
def allowance (course : Course n) (limit : Option Int) (bottleneck : Int) : Int :=
  match limit with
  | some limit => min bottleneck (limit - course.flow)
  | none => bottleneck

def augment (course : Course n) (source sink : Fin n) (found : Discovery n) (units : Int) :
    Except Fault (Course n) := do
  let trail ← found.reach.trail source.val sink.val
  let network ← trail.foldlM (fun net id => net.push id units) course.network
  let unitCost := (found.reach.labels.entry sink).pathCost
  let flow := course.flow + units
  let cost := course.cost + units * unitCost
  let last : Augmentation := { trail, units, unitCost }
  let augmentations := course.augmentations ++ [last]
  let record := Record.augmented units unitCost augmentations.length flow cost
  return {
    network, flow, cost, augmentations
    potential := found.potential
    stopAtSink := true
    journal := course.journal ++ [record] }

/-- One search and one augmentation, or nothing when the sink cannot be reached or
    nothing more may be sent. -/
def advance (course : Course n) (source sink : Fin n) (limit : Option Int) :
    Except Fault (Option (Course n)) := do
  match ← course.discover source sink with
  | none => return none
  | some found =>
    let units := course.allowance limit (found.reach.labels.entry sink).bottleneck
    if units ≤ 0 then
      return none
    else
      some <$> course.augment source sink found units

/-- Advance until nothing is left to do, or until something goes wrong. -/
def pursue (course : Course n) (source sink : Fin n) (limit : Option Int) :
    (budget : Nat) → Course n × Except Fault Unit
  | 0 => (course, .error .endless)
  | budget + 1 =>
    match course.advance source sink limit with
    | .error fault => (course, .error fault)
    | .ok none => (course, .ok ())
    | .ok (some next) => next.pursue source sink limit budget

/-- One course comes out of another by any number of augmentations. -/
inductive Leads (source sink : Fin n) (limit : Option Int) : Course n → Course n → Prop where
  | refl (course : Course n) : Leads source sink limit course course
  | step {first second third : Course n} :
    Leads source sink limit first second → second.advance source sink limit = .ok (some third) →
    Leads source sink limit first third

/-- Wherever a solve ends, it got there by augmentations. -/
theorem leads_pursue (source sink : Fin n) (limit : Option Int) (budget : Nat)
    (course : Course n) :
    Leads source sink limit course (course.pursue source sink limit budget).1 := by
  suffices from_start : ∀ start, Leads source sink limit start course →
      Leads source sink limit start (course.pursue source sink limit budget).1 from
    from_start course (.refl course)
  intro start reached
  induction budget generalizing course with
  | zero => exact reached
  | succ budget ih =>
    unfold pursue
    split
    · exact reached
    · exact reached
    · rename_i next found
      exact ih next (.step reached found)

end Course

end MinCostFlow
