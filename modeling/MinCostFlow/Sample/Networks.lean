import MinCostFlow.Network.Basic

/-! # Small networks

Networks of a few nodes, each with one thing in it that a search or a solve has to cope with.
-/

namespace MinCostFlow.Network

/-- One arc that can hold more than a word can tell. -/
def wideArc : Network 2 where
  arcs := [{ tail := 0, head := 1, capacity := 9223372036854775808, cost := 1 }]

/-- Three arcs which take `2 ^ 64` units from one node to the other, half of them as a debt on an
    arc that runs the other way. -/
def wholeSpan : Network 2 where
  arcs := [
    { tail := 0, head := 1, capacity := 9223372036854775807, cost := 0,
      flow := 9223372036854775807 },
    { tail := 1, head := 0, capacity := 0, cost := 0, flow := -9223372036854775808 },
    { tail := 0, head := 1, capacity := 1, cost := 0, flow := 1 }]

/-- An arc, and at its head a loop that pays. -/
def payingLoop : Network 2 where
  arcs := [{ tail := 0, head := 1, capacity := 1, cost := 0 },
    { tail := 1, head := 1, capacity := 1, cost := -1 }]

/-- Three nodes in a row. Of the two units that the first arc can hold it carries one, and the
    second arc pays. -/
def halfUsed : Network 3 where
  arcs := [{ tail := 0, head := 1, capacity := 2, cost := 4, flow := 1 },
    { tail := 1, head := 2, capacity := 1, cost := -3 }]

/-- Two arcs in a row, each of which costs half a horizon. -/
def halfHorizons : Network 3 where
  arcs := [{ tail := 0, head := 1, capacity := 1, cost := 500000000000000000 },
    { tail := 1, head := 2, capacity := 1, cost := 500000000000000000 }]

/-- Two ways to the last node, of which one begins with an arc that pays. -/
def twoWays : Network 4 where
  arcs := [{ tail := 0, head := 1, capacity := 1, cost := -5 },
    { tail := 1, head := 3, capacity := 1, cost := 2 },
    { tail := 0, head := 2, capacity := 2, cost := 4 },
    { tail := 2, head := 3, capacity := 1, cost := 1 }]

/-- Node 1 is reached and looked at before a way over node 2 turns out to be cheaper, and then the
    way to node 3 gets cheaper as well. -/
def lateBargain : Network 4 where
  arcs := [{ tail := 0, head := 1, capacity := 1, cost := 2 },
    { tail := 0, head := 2, capacity := 1, cost := 3 },
    { tail := 2, head := 1, capacity := 1, cost := -4 },
    { tail := 1, head := 3, capacity := 1, cost := 1 }]

/-- A sink close by, and a corner two arcs away which only together cost more than a horizon. -/
def farCorner : Network 4 where
  arcs := [{ tail := 0, head := 1, capacity := 1, cost := 600000000000000000 },
    { tail := 1, head := 2, capacity := 1, cost := 600000000000000000 },
    { tail := 0, head := 3, capacity := 1, cost := 5 }]

end MinCostFlow.Network
