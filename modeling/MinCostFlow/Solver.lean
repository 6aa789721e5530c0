import MinCostFlow.Course
import MinCostFlow.Network.Balance
import MinCostFlow.Network.NegativeCycle

/-! # Flow of least cost, path by path

Flow is sent along one cheapest path of the residual network after the other until
no path is left or the cap on the total is reached. Before the first search the
options may object to the network, and after the last the balances may be checked.
-/

namespace MinCostFlow

/-- What a solve answers: how much flows and what it costs. -/
structure FlowCost where
  flow : Int
  cost : Int
  deriving Repr, DecidableEq

/-- All that a solve leaves behind. A solve that fails keeps what it had sent. -/
structure Run (n : Nat) where
  network : Network n
  journal : Journal := []
  augmentations : List Augmentation := []
  outcome : Except Fault FlowCost

namespace Network

variable {n : Nat}

/-- What speaks against solving at all, with the record that it leaves. -/
def objection? (net : Network n) (options : Options) : Option (Fault × Journal) :=
  if options.maxFlow.any (· < 0) then
    some (.argument .negativeLimit, [])
  else if !options.allowNegativeCosts && net.hasNegativeCost then
    some (.argument .negativeCost, [])
  else if options.checkNegativeCycles then
    match net.findNegativeCycle with
    | .error fault => some (fault, [])
    | .ok none => none
    | .ok (some cycle) =>
      let nodes := cycle.map Fin.val
      some (.state (.negativeCycle nodes), [.cycleFound nodes])
  else
    none

/-- Where a solve begins. Zero potentials over negative costs do not make reduced costs
    at least zero, so the first search then has to go to its end. -/
def course (net : Network n) (source : Fin n) (options : Options) : Course n where
  network := net
  potential := if options.seedPotentials then .seed net source else .zero n
  stopAtSink := options.seedPotentials || !net.hasNegativeCost

/-- Enough searches for any solve. Each augmentation uses up room on an arc that leaves
    the source, and no path leads back into the source. -/
def solveBudget (net : Network n) (source : Fin n) : Nat :=
  (net.out source).foldl (fun sum face => sum + face.room.toNat) 0 + 1

/-- The searches of a solve and the checks after them. -/
def solveBetween (net : Network n) (source sink : Fin n) (options : Options) : Run n :=
  let started :=
    Record.started n net.arcs.length source.val sink.val options
  let (course, ended) :=
    (net.course source options).pursue source sink options.maxFlow (net.solveBudget source)
  let journal := started :: course.journal
  let finished := Record.finished course.flow course.cost course.augmentations.length
  let answer : FlowCost := { flow := course.flow, cost := course.cost }
  match ended with
  | .error fault =>
    { network := course.network, augmentations := course.augmentations, journal
      outcome := .error fault }
  | .ok () =>
    let (complaint, verdict) :=
      if options.verifyConservation then
        course.network.verifyConservation source.val sink.val course.flow
      else
        ([], .ok ())
    match verdict with
    | .error fault =>
      { network := course.network, augmentations := course.augmentations
        journal := journal ++ complaint, outcome := .error fault }
    | .ok () =>
      { network := course.network, augmentations := course.augmentations
        journal := journal ++ complaint ++ [finished], outcome := .ok answer }

/-- Send as much flow as the options allow from source to sink, at the least cost.
    The flow already on the network stays and is built upon. -/
def solve (net : Network n) (source sink : Int) (options : Options := {}) : Run n :=
  if inside : (0 ≤ source ∧ source < n) ∧ 0 ≤ sink ∧ sink < n then
    if source = sink then
      { network := net, outcome := .ok { flow := 0, cost := 0 } }
    else
      match net.objection? options with
      | some (fault, journal) => { network := net, journal, outcome := .error fault }
      | none =>
        net.solveBetween (Position.front inside.1) (Position.front inside.2) options
  else
    { network := net, outcome := .error (.argument .terminalOutside) }

def minCostMaxFlow (net : Network n) (source sink : Int) : Run n :=
  net.solve source sink

def minCostFlow (net : Network n) (source sink limit : Int) : Run n :=
  net.solve source sink { maxFlow := some limit }

end Network

end MinCostFlow
