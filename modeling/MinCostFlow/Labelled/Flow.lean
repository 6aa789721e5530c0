import MinCostFlow.Labelled.FlowTable
import MinCostFlow.Solver

/-! # Flow of least cost between labels

Labels become nodes in their order and listed edges become arcs in theirs. Capacities
and costs are read from attributes and cut down to whole numbers.
-/

namespace MinCostFlow.Labelled

/-- What a solve between labels answers. -/
structure Answer where
  total : FlowCost
  table : FlowTable Int
  deriving Repr

/-- The attribute that holds a number, which is zero if it is missing. -/
def Edge.number (edge : Edge) (name : String) : Value :=
  (edge.attributes.get? name).getD (.whole 0)

/-- The capacity of an edge: finite, and not below zero. -/
def Edge.capacity (edge : Edge) (name : String) : Except Fault Int :=
  match edge.attributes.get? name with
  | none => .error (.argument .capacityNotFinite)
  | some value => do
    match ← value.amount? with
    | none => throw (.argument .capacityNotFinite)
    | some amount =>
      if amount.belowZero then
        throw (.argument .negativeCapacity)
      return amount.whole

/-- The cost of a unit on an edge, which has to be finite. -/
def Edge.cost (edge : Edge) (name : String) : Except Fault Int := do
  match ← (edge.number name).amount? with
  | none => throw (.argument .costNotFinite)
  | some amount => return amount.whole

namespace Graph

def place (graph : Graph) (label : Value) : Except Fault Nat :=
  if label.isLabel then
    match graph.index? label with
    | some found => .ok found
    | none => .error (.argument (.unknownLabel label.written))
  else
    .error .wrongKind

def rows (graph : Graph) (capacityName costName : String) : Except Fault (List ArcRow) :=
  if graph.directed then
    graph.listed.mapM fun edge => do
      let tail ← graph.place edge.source
      let head ← graph.place edge.target
      let capacity ← edge.capacity capacityName
      let cost ← edge.cost costName
      return { tail, head, capacity, cost }
  else
    .error (.argument .undirected)

/-- Send as much flow as the options allow from one label to another, at the least cost. -/
def solve (graph : Graph) (source sink : Value) (capacityName costName : String)
    (options : Options := {}) : Except Fault Answer := do
  let rows ← graph.rows capacityName costName
  let s ← graph.place source
  let t ← graph.place sink
  let net ← (Network.empty (max 1 graph.labels.length)).addRows rows
  let run := net.solve s t options
  let total ← run.outcome
  let flows := run.network.arcs.map Arc.flow
  return { total, table := .ofListed graph.labels (graph.listed.zip flows) }

/-- What a flow costs on a graph. Edges without an amount carry nothing. -/
def costOfFlow (graph : Graph) (table : FlowTable Value) (costName : String) : Except Fault Int :=
  graph.listed.foldlM (fun total edge => do
    let flow ← ((table.amount? edge).getD (.whole 0)).wholeNumber
    let cost ← (edge.number costName).wholeNumber
    return total + flow * cost) 0

def priceOf (graph : Graph) (answer : Answer) (costName : String) : Except Fault Int :=
  graph.costOfFlow (answer.table.mapAmounts .whole) costName

end Graph

end MinCostFlow.Labelled
