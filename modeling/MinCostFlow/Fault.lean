/-! # What can go wrong

Every operation of the library that can fail does so with a `Fault`. A fault is a
cause, not a text: the wording belongs to `BadArgument.message` and
`BadState.message`, and the remaining causes have no wording of their own.
-/

namespace MinCostFlow

/-- The parallel columns of an edge list, in the order in which they are read. -/
inductive Column where
  | tail
  | head
  | capacity
  | cost
  deriving Repr, DecidableEq

def Column.name : Column → String
  | .tail => "tail"
  | .head => "head"
  | .capacity => "capacity"
  | .cost => "cost"

/-- The caller's input is structurally wrong. Such a fault arises before any flow
    is moved, so the input can be mended and the call made again. -/
inductive BadArgument where
  /-- A network needs at least one node. -/
  | noNodes
  /-- An arc or an arc's name mentions a node that the network does not have. -/
  | nodeOutside (node : Int) (count : Nat)
  /-- An arc may hold nothing, but not less. -/
  | negativeCapacity
  /-- Source or sink is not a node of the network. -/
  | terminalOutside
  /-- The cap on the total flow is below zero. -/
  | negativeLimit
  /-- A usable arc has a negative cost and the options rule that out. -/
  | negativeCost
  /-- An edge list was announced with no nodes. -/
  | emptyEdgeList
  /-- A column of an edge list is a single value or a table. -/
  | notFlat (column : Column)
  /-- The columns of tails and heads differ in length. -/
  | endpointLengths
  /-- The columns of capacities and costs differ in length from the endpoints. -/
  | attributeLengths
  /-- A column of an edge list names a node that is not announced. -/
  | endpointOutside (column : Column)
  /-- An edge list holds a capacity below zero. -/
  | listedNegativeCapacity
  /-- A labelled graph has no direction on its edges. -/
  | undirected
  /-- The capacity of a labelled edge is missing, no number, or not finite. -/
  | capacityNotFinite
  /-- The cost of a labelled edge is no number or not finite. -/
  | costNotFinite
  /-- Source or sink is not a label of the graph; `written` is its text. -/
  | unknownLabel (written : String)
  deriving Repr, DecidableEq

/-- The computation cannot produce a trustworthy answer. -/
inductive BadState where
  /-- A cycle of usable arcs costs less than nothing; its nodes, first one repeated. -/
  | negativeCycle (nodes : List Nat)
  /-- The path search ran around a cycle that costs less than nothing. -/
  | endlessPath
  /-- Inflow and outflow of a node do not match. -/
  | unbalanced (node : Nat)
  deriving Repr, DecidableEq

/-- Everything that an operation may answer instead of a value. -/
inductive Fault where
  | argument (cause : BadArgument)
  | state (cause : BadState)
  /-- A position lies outside the sequence that it is meant for. -/
  | outOfRange
  /-- A number does not fit where it is to be stored or examined. -/
  | tooWide
  /-- A value has the right kind but no reading as a whole number. -/
  | unreadable
  /-- A value is of a kind that the operation does not take. -/
  | wrongKind
  /-- The options have no field of this name. -/
  | unknownField (name : String)
  /-- Options cannot be changed once they are made. -/
  | frozen
  /-- Parent links never lead back to where the trail is to start. -/
  | strayTrail
  /-- A computation used up the number of steps that it was allotted. -/
  | endless
  deriving Repr, DecidableEq

/-- Nodes in brackets with a comma and a blank between them. -/
def writtenNodes (nodes : List Nat) : String :=
  "[" ++ ", ".intercalate (nodes.map toString) ++ "]"

def BadArgument.message : BadArgument → String
  | .noNodes => "Number of nodes must be positive."
  | .nodeOutside node count => s!"Node index {node} out of bounds for {count} nodes."
  | .negativeCapacity => "Capacity must be non-negative."
  | .terminalOutside => "Node index out of bounds."
  | .negativeLimit => "Max flow must be non-negative."
  | .negativeCost => "Negative costs are not allowed by options."
  | .emptyEdgeList => "n must be positive"
  | .notFlat column => column.name ++ " must be a 1D array"
  | .endpointLengths => "tail and head arrays must match length"
  | .attributeLengths => "edge attribute arrays must match tail/head length"
  | .endpointOutside column => column.name ++ " index out of range"
  | .listedNegativeCapacity => "capacity must be non-negative"
  | .undirected => "Only directed graphs are supported."
  | .capacityNotFinite => "Each edge must specify a finite capacity."
  | .costNotFinite => "Edge cost must be a finite number."
  | .unknownLabel written => "Node " ++ written ++ " is not in the graph."

def BadState.message : BadState → String
  | .negativeCycle nodes => "Negative cost cycle detected: " ++ writtenNodes nodes
  | .endlessPath => "Negative cost cycle detected in residual graph."
  | .unbalanced node => s!"Flow conservation violated at node {node}"

/-- The wording of a fault, for the two families that have one. -/
def Fault.message? : Fault → Option String
  | .argument cause => some cause.message
  | .state cause => some cause.message
  | _ => none

end MinCostFlow
