import MinCostFlow.Labelled.Flow

/-! # A small labelled graph -/

namespace MinCostFlow.Sample

open Labelled

def lettered (source target : String) (capacity cost : Int) : Edge where
  source := .text source
  target := .text target
  attributes := [("capacity", .whole capacity), ("weight", .whole cost)]

/-- Three letters, with a detour that is cheaper than the direct way. -/
def letters : Except Fault Graph :=
  Graph.build true false [] [lettered "s" "a" 2 (-1), lettered "a" "t" 2 3, lettered "s" "t" 1 4]

def braced (entries : List (Value × String)) : String :=
  "\x7b" ++ ", ".intercalate (entries.map fun (name, text) => name.written ++ ": " ++ text) ++ "\x7d"

/-- A flow table of a graph without parallel edges in writing. -/
def tableText (table : FlowTable Int) : String :=
  braced (table.map fun (label, row) =>
    (label, braced (row.map fun (neighbour, cell) =>
      (neighbour, ", ".intercalate (cell.map fun (_, amount) => toString amount)))))

def lettersReport : Except Fault String := do
  let graph ← letters
  let answer ← graph.solve (.text "s") (.text "t") "capacity" "weight"
  let price ← graph.priceOf answer "weight"
  return s!"flow value: {answer.total.flow}\n" ++ "flow: " ++ tableText answer.table ++ "\n" ++
    s!"cost: {answer.total.cost} {price}\n"

end MinCostFlow.Sample
