import MinCostFlow.Network.Basic

/-! # Networks in one line of text -/

namespace MinCostFlow

def writtenFlag (flag : Bool) : String := if flag then "True" else "False"

/-- A residual arc: where it leads, what is left of what it had, its price. -/
def Residual.text {n : Nat} (face : Residual n) : String :=
  s!"Edge(to={face.head.val}, cap={face.room}/{face.initial}, cost={face.cost}, original=" ++
    writtenFlag face.forward ++ ")"

def Network.text {n : Nat} (net : Network n) : String :=
  s!"ResidualGraph(nodes={n}, arcs={net.arcs.length})"

end MinCostFlow
