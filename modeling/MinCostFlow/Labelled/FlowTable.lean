import MinCostFlow.Labelled.Graph

/-! # Flow by label

A flow on a labelled graph is a table: a row per label, in it a cell per neighbour, and
in the cell an amount per key. Where edges have no keys, the one key is `nothing`.
-/

namespace MinCostFlow.Labelled

/-- Amounts by key. -/
abbrev Cell (α : Type) := List (Value × α)

/-- Cells by neighbour. -/
abbrev Row (α : Type) := List (Value × Cell α)

/-- Rows by label. -/
abbrev FlowTable (α : Type) := List (Value × Row α)

def lastUnder {α : Type} (entries : List (Value × α)) (label : Value) : Option α :=
  (entries.reverse.find? fun (name, _) => name.same label).map Prod.snd

namespace FlowTable

variable {α : Type}

/-- The amount on an edge. Rows under one label count as one row, and later entries
    replace earlier ones. -/
def amount? (table : FlowTable α) (edge : Edge) : Option α := do
  let row := (table.filter fun (name, _) => name.same edge.source).flatMap Prod.snd
  let cell ← lastUnder row edge.target
  lastUnder cell edge.key

/-- The table of a graph whose listed edges carry these amounts. -/
def ofListed (labels : List Value) (amounts : List (Edge × α)) : FlowTable α :=
  labels.map fun label =>
    let own := amounts.filter fun (edge, _) => edge.source.same label
    let neighbours := Graph.distinct (own.map fun (edge, _) => edge.target)
    (label, neighbours.map fun neighbour =>
      (neighbour, (own.filter fun (edge, _) => edge.target.same neighbour).map
        fun (edge, amount) => (edge.key, amount)))

def mapAmounts {β : Type} (f : α → β) (table : FlowTable α) : FlowTable β :=
  table.map fun (label, row) =>
    (label, row.map fun (neighbour, cell) =>
      (neighbour, cell.map fun (key, amount) => (key, f amount)))

@[simp] theorem map_fst_ofListed (labels : List Value) (amounts : List (Edge × α)) :
    (ofListed labels amounts).map Prod.fst = labels := by
  simp [ofListed, Function.comp_def]

end FlowTable

end MinCostFlow.Labelled
