import MinCostFlow.Journal
import MinCostFlow.Network.Basic
import MinCostFlow.PerNode
import MinCostFlow.Word

/-! # Balances of nodes

The balance of a node is what flows in minus what flows out. It is computed from
columns of words, so every number of every arc has to fit a word, and the sums wrap
around. The check after a solve compares the balances with what the total flow
demands: minus the total at the source, plus the total at the sink, and zero else.
-/

namespace MinCostFlow

/-- The arcs of a network as parallel columns of words. -/
structure Columns where
  tail : List Int
  head : List Int
  capacity : List Int
  cost : List Int
  flow : List Int
  deriving Repr, DecidableEq

/-- A node whose balance is not the expected one. -/
structure Imbalance where
  node : Nat
  balance : Int
  expected : Int
  deriving Repr, DecidableEq

namespace Network

variable {n : Nat}

/-- The columns of the arcs in insertion order; each number has to fit. -/
def columns (net : Network n) : Except Fault Columns := do
  let tail ← net.arcs.mapM fun arc => Word.store arc.tail.val
  let head ← net.arcs.mapM fun arc => Word.store arc.head.val
  let capacity ← net.arcs.mapM fun arc => Word.store arc.capacity
  let cost ← net.arcs.mapM fun arc => Word.store arc.cost
  let flow ← net.arcs.mapM fun arc => Word.store arc.flow
  return { tail, head, capacity, cost, flow }

def post (sums : PerNode Int n) (v : Fin n) (amount : Int) : PerNode Int n :=
  sums.put v (Word.wrap (sums.entry v + amount))

/-- The balance of every node, in words: first all that leaves is taken off, and then
    all that arrives is added. -/
def balances (net : Network n) : Except Fault (PerNode Int n) := do
  let _ ← net.columns
  let left := net.arcs.foldl (fun sums arc => post sums arc.tail (Word.wrap (-arc.flow)))
    (.all n 0)
  return net.arcs.foldl (fun sums arc => post sums arc.head arc.flow) left

/-- The slot of a terminal among the balances, counted from either end. A terminal that
    names no slot is out of range, unless it takes the sign bit of a word: then it is
    read as a word, and is too wide for one, before its range is looked at. -/
def balanceSlot (n : Nat) (terminal : Int) : Except Fault (Fin n) :=
  match Position.slot? n terminal with
  | some found => .ok found
  | none => .error (if Word.TakesSignBit terminal then .tooWide else .outOfRange)

/-- What the balances should be when `total` units flow from source to sink; the sink is
    written last. -/
def expectedBalances (n : Nat) (source sink total : Int) : Except Fault (PerNode Int n) := do
  let s ← balanceSlot n source
  let supplied ← Word.store (-total)
  let t ← balanceSlot n sink
  let received ← Word.store total
  return ((PerNode.all n 0).put s supplied).put t received

@[simp] theorem balanceSlot_natCast (v : Fin n) : balanceSlot n (v.val : Int) = .ok v := by
  have inside : (0 : Int) ≤ v.val ∧ (v.val : Int) < n :=
    ⟨by omega, by exact_mod_cast v.isLt⟩
  simp [balanceSlot, Position.slot?, Position.front, inside]

/-- The first node whose balance is not the expected one. -/
def imbalance? (net : Network n) (source sink total : Int) : Except Fault (Option Imbalance) := do
  let expected ← expectedBalances n source sink total
  let balances ← net.balances
  return (List.finRange n).findSome? fun (v : Fin n) =>
    if balances.entry v = expected.entry v then none
    else some { node := v, balance := balances.entry v, expected := expected.entry v }

/-- The check after a solve, with the record that it leaves. -/
def verifyConservation (net : Network n) (source sink total : Int) : Journal × Except Fault Unit :=
  match net.imbalance? source sink total with
  | .error fault => ([], .error fault)
  | .ok none => ([], .ok ())
  | .ok (some found) =>
    ([.unbalanced found.node found.balance found.expected],
      .error (.state (.unbalanced found.node)))

end Network

end MinCostFlow
