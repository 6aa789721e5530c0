/-! # The queue of a path search

Entries are kept in ascending order of distance, and of node number among equal
distances, so the least entry is always the first.
-/

namespace MinCostFlow

/-- A node that waits at some distance. `name` is how the node was given: that is
    its own number, except for a source counted from the back. -/
structure Entry (n : Nat) where
  dist : Int
  node : Fin n
  name : Int := node.val
  deriving Repr, DecidableEq

namespace Entry

variable {n : Nat}

/-- Nearer first, and then the smaller name. -/
def Before (left right : Entry n) : Prop :=
  left.dist < right.dist ∨ left.dist = right.dist ∧ left.name ≤ right.name

instance (left right : Entry n) : Decidable (left.Before right) :=
  inferInstanceAs (Decidable (_ ∨ _))

end Entry

/-- Waiting entries, least first. -/
abbrev Queue (n : Nat) := List (Entry n)

namespace Queue

variable {n : Nat}

/-- Put an entry before the first one that it does not follow. -/
def insert (entry : Entry n) (queue : Queue n) : Queue n :=
  queue.takeWhile (fun other => ¬ entry.Before other) ++
    entry :: queue.dropWhile (fun other => ¬ entry.Before other)

def Ordered (queue : Queue n) : Prop := List.Pairwise Entry.Before queue

end Queue

end MinCostFlow
