import MinCostFlow.Network.Relaxation

/-! # Reading a path out of parent links

A search leaves one link per node. Followed from the sink they lead back to the
source, and the arcs met on the way, in reverse, are the path.
-/

namespace MinCostFlow.Trail

/-- Follow the links back from `v` until the source, putting the arcs in front of
    `path`. Positions are counted from either end. -/
def back (parentNode parentPlace : Array Int) (source : Int) :
    (budget : Nat) → Int → List ArcId → Except Fault (List ArcId)
  | budget, v, path =>
    if v = source then
      .ok path
    else
      match budget with
      | 0 => .error .strayTrail
      | budget + 1 => do
        let u ← Position.entry parentNode v
        let place ← Position.entry parentPlace v
        back parentNode parentPlace source budget u (⟨u, place⟩ :: path)

/-- The path from source to sink: no arcs if the sink was not reached. Among one more
    nodes than there are slots two share a slot, and from there on the links only repeat
    themselves. So that many steps find the source, or leave the slots, or never will. -/
def between (dist parentNode parentPlace : Array Int) (source sink : Int) :
    Except Fault (List ArcId) := do
  if (← Position.entry dist sink) = horizon then
    return []
  back parentNode parentPlace source (parentNode.size + 1) sink []

end MinCostFlow.Trail
