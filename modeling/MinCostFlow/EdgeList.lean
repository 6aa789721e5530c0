import MinCostFlow.Solver
import MinCostFlow.Value.Column

/-! # Networks as parallel columns

A network can be given by columns of tails, heads, capacities and costs. The answer is
the flow on each edge in the order of the columns, and the flow and cost in total.
-/

namespace MinCostFlow

/-- Edges over announced nodes, column by column. -/
structure EdgeList where
  tail : List Int
  head : List Int
  capacity : List Int
  cost : List Int
  deriving Repr, DecidableEq

/-- The flow on each edge, and in total. -/
structure EdgeFlows where
  flows : List Int
  total : FlowCost
  deriving Repr, DecidableEq

namespace EdgeList

def rows (edges : EdgeList) : List ArcRow :=
  (edges.tail.zip (edges.head.zip (edges.capacity.zip edges.cost))).map
    fun (tail, head, capacity, cost) => { tail, head, capacity, cost }

def objection? (nodes : Nat) (edges : EdgeList) : Option BadArgument :=
  let outside (node : Int) : Bool := node < 0 || (nodes : Int) ≤ node
  if edges.head.length ≠ edges.tail.length then some .endpointLengths
  else if edges.capacity.length ≠ edges.tail.length ∨ edges.cost.length ≠ edges.tail.length then
    some .attributeLengths
  else if edges.tail.any outside then some (.endpointOutside .tail)
  else if edges.head.any outside then some (.endpointOutside .head)
  else if edges.capacity.any (· < 0) then some .listedNegativeCapacity
  else none

def read (tail head capacity cost : Value) : Except Fault EdgeList := do
  let tail ← tail.column .tail
  let head ← head.column .head
  let capacity ← capacity.column .capacity
  let cost ← cost.column .cost
  return { tail, head, capacity, cost }

/-- Send as much flow as the options allow from source to sink, at the least cost. The
    terminals are read after everything else. -/
def solve (nodes : Int) (tail head capacity cost source sink : Value) (options : Options := {}) :
    Except Fault EdgeFlows := do
  if nodes ≤ 0 then
    throw (.argument .emptyEdgeList)
  let edges ← read tail head capacity cost
  if let some cause := edges.objection? nodes.toNat then
    throw (.argument cause)
  let net ← (Network.empty nodes.toNat).addRows edges.rows
  let source ← source.wholeNumber
  let sink ← sink.wholeNumber
  let run := net.solve source sink options
  let total ← run.outcome
  let flows ← run.network.arcs.mapM fun arc => Word.store arc.flow
  return { flows, total }

theorem length_rows {nodes : Nat} {edges : EdgeList} (fine : edges.objection? nodes = none) :
    edges.rows.length = edges.tail.length := by
  unfold objection? at fine
  split at fine
  · simp at fine
  · rename_i heads
    split at fine
    · simp at fine
    · rename_i attributes
      simp only [rows, List.length_map, List.length_zip]
      omega

end EdgeList

end MinCostFlow
