import MinCostFlow.Value

/-! # Graphs over labels

Nodes are labels of any kind and edges carry named attributes. A graph is directed or
not, and admits parallel edges or not; parallel edges are told apart by keys. Labels
and edges keep the order in which they were first added, and adding an edge again
only merges its attributes.
-/

namespace MinCostFlow.Labelled

/-- Named values, each name once. -/
abbrev Attributes := List (String × Value)

/-- Set one attribute, in its place if it is there already. -/
def Attributes.put (attributes : Attributes) (entry : String × Value) : Attributes :=
  if attributes.any fun (name, _) => name = entry.1 then
    attributes.map fun (name, value) => if name = entry.1 then (name, entry.2) else (name, value)
  else
    attributes ++ [entry]

def Attributes.merge (attributes changes : Attributes) : Attributes := changes.foldl .put attributes

def Attributes.get? (attributes : Attributes) (name : String) : Option Value :=
  attributes.lookup name

/-- An edge. Its ends and its key are kept as they were given when it was first added;
    without parallel edges the key is `nothing`. -/
structure Edge where
  source : Value
  target : Value
  key : Value := .nothing
  attributes : Attributes := []
  deriving Repr

/-- Labels and edges in the order in which they were added. -/
structure Graph where
  directed : Bool
  parallel : Bool
  labels : List Value := []
  edges : List Edge := []
  deriving Repr

/-- Does an edge lead from one label to another? Without direction, from either end. -/
def Edge.joins (directed : Bool) (edge : Edge) (u v : Value) : Bool :=
  (edge.source.same u && edge.target.same v) ||
    (!directed && edge.source.same v && edge.target.same u)

/-- The first of the numbers from `keys.length` on that is not taken as a key. -/
def freshKey (keys : List Value) : Value :=
  let candidates := (List.range (keys.length + 1)).map fun more =>
    Value.whole (keys.length + more : Nat)
  (candidates.find? fun key => !keys.any (Value.same key)).getD .nothing

/-- The place of the first entry that passes a test, changed. -/
def changeFirst {α : Type} (test : α → Bool) (change : α → α) : List α → List α
  | [] => []
  | entry :: rest =>
    if test entry then change entry :: rest else entry :: changeFirst test change rest

namespace Graph

def addLabel (graph : Graph) (label : Value) : Graph :=
  if graph.labels.any (Value.same label) then graph
  else { graph with labels := graph.labels ++ [label] }

/-- The key under which an edge is added among the edges between the same ends. -/
def keyFor (graph : Graph) (peers : List Edge) : Value → Value
  | .nothing => if graph.parallel then freshKey (peers.map Edge.key) else .nothing
  | key => if graph.parallel then key else .nothing

/-- Add an edge and, if need be, its ends. Between the same ends and under the same key
    there is only one edge, which takes over the new attributes. -/
def addEdge (graph : Graph) (edge : Edge) : Graph :=
  let joins (other : Edge) : Bool := other.joins graph.directed edge.source edge.target
  let key := graph.keyFor (graph.edges.filter joins) edge.key
  let known (other : Edge) : Bool := joins other && other.key.same key
  let labelled := (graph.addLabel edge.source).addLabel edge.target
  if graph.edges.any known then
    { labelled with
      edges := changeFirst known
        (fun other => { other with attributes := other.attributes.merge edge.attributes })
        graph.edges }
  else
    { labelled with edges := graph.edges ++ [{ edge with key }] }

def checkedLabel : Value → Except Fault Unit
  | .nothing => .error .unreadable
  | label => if label.isLabel then .ok () else .error .wrongKind

/-- The graph of a list of labels and a list of edges, added in this order. -/
def build (directed parallel : Bool) (labels : List Value) (edges : List Edge) :
    Except Fault Graph := do
  for label in labels do
    checkedLabel label
  for edge in edges do
    checkedLabel edge.source
    checkedLabel edge.target
    if !edge.key.isLabel then
      throw .wrongKind
  let bare : Graph := { directed, parallel }
  return edges.foldl addEdge (labels.foldl addLabel bare)

def index? (graph : Graph) (label : Value) : Option Nat :=
  graph.labels.findIdx? (Value.same label)

/-- The edges at a label, seen from there. -/
def incident (graph : Graph) (label : Value) : List Edge :=
  graph.edges.filterMap fun edge =>
    if edge.source.same label then some { edge with source := label }
    else if !graph.directed && edge.target.same label then
      some { edge with source := label, target := edge.source }
    else none

/-- Values without those that are the same as an earlier one. -/
def distinct (values : List Value) : List Value :=
  values.foldl (fun kept value => if kept.any (Value.same value) then kept else kept ++ [value]) []

/-- The edges at a label by neighbour, in the order in which the neighbours came to be
    such, without those to the labels in `seen`. -/
def edgesAt (graph : Graph) (seen : List Value) (label : Value) : List Edge :=
  let edges := graph.incident label
  let neighbours := distinct (edges.map Edge.target)
  let fresh := neighbours.filter fun neighbour => !seen.any (Value.same neighbour)
  fresh.flatMap fun neighbour =>
    (edges.filter fun edge => edge.target.same neighbour).map fun edge =>
      { edge with target := neighbour }

/-- All edges by label. An edge without direction is listed once, from the end that
    comes first. -/
def listed (graph : Graph) : List Edge :=
  (graph.labels.foldl (fun (seen, edges) label =>
      (if graph.directed then [] else label :: seen, edges ++ graph.edgesAt seen label))
    (([], []) : List Value × List Edge)).2

end Graph

end MinCostFlow.Labelled
