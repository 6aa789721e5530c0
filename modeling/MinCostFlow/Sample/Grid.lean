import MinCostFlow.Network.Text
import MinCostFlow.Solver

/-! # A grid of nodes

The nodes of a square grid, each with an arc to the node below it and to the node on
its right.
-/

namespace MinCostFlow.Sample

/-- The arcs of a grid, row by row: downwards first, then to the right. -/
def gridRows (size : Nat) : List ArcRow :=
  (List.range size).flatMap fun i =>
    (List.range size).flatMap fun j =>
      let node := i * size + j
      (if i + 1 < size then [{ tail := node, head := node + size, capacity := 5, cost := 1 }] else []) ++
        (if j + 1 < size then [{ tail := node, head := node + 1, capacity := 5, cost := 1 }] else [])

/-- A grid with `size` nodes along each side. A negative size has the nodes of its square
    and no arcs. -/
def grid (size : Int) : Except Fault ((n : Nat) × Network n) := do
  let n ← Network.nodeCount (size * size)
  let net ← (Network.empty n).addRows (gridRows size.toNat)
  return ⟨n, net⟩

def gridReport : Except Fault String := do
  let size := 8
  let ⟨_, net⟩ ← grid size
  let run := net.solve 0 (size * size - 1) { maxFlow := some 10, verifyConservation := true }
  let total ← run.outcome
  return s!"flow: {total.flow}\ncost: {total.cost}\n"

end MinCostFlow.Sample
