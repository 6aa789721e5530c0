import Mathlib.Algebra.Order.BigOperators.Group.List
import Mathlib.Algebra.Order.Ring.Int
import MinCostFlow.Network.Lemmas

/-! # Flows on a network

The flow is part of the network, so two flows on the same arcs are two networks that
become equal when their flow is dropped. Here stands what makes such a flow feasible,
how much it carries, what it costs, and when none carries more or the same for less.
-/

namespace MinCostFlow.Network

variable {n : Nat}

/-- What all arcs together carry into a node. -/
def inflow (net : Network n) (v : Fin n) : Int :=
  ((net.arcs.filter fun arc => arc.head = v).map Arc.flow).sum

/-- What all arcs together carry out of a node. -/
def outflow (net : Network n) (v : Fin n) : Int :=
  ((net.arcs.filter fun arc => arc.tail = v).map Arc.flow).sum

/-- What stays at a node. -/
def exactBalance (net : Network n) (v : Fin n) : Int := net.inflow v - net.outflow v

def totalCost (net : Network n) : Int := (net.arcs.map fun arc => arc.flow * arc.cost).sum

/-- What one unit on every arc costs, signs left aside. -/
def costMagnitude (net : Network n) : Nat := (net.arcs.map fun arc => arc.cost.natAbs).sum

/-- Nothing has been pushed. -/
def Fresh (net : Network n) : Prop := ∀ arc ∈ net.arcs, arc.flow = 0

instance freshDecidable (net : Network n) : Decidable net.Fresh :=
  inferInstanceAs (Decidable (∀ arc ∈ net.arcs, arc.flow = 0))

/-- The same arcs, whatever they carry. -/
def SameArcs (left right : Network n) : Prop := left.reset = right.reset

def WithinCapacity (net : Network n) : Prop :=
  ∀ arc ∈ net.arcs, 0 ≤ arc.flow ∧ arc.flow ≤ arc.capacity

/-- The arcs carry `value` units from source to sink and nothing is lost on the way. -/
structure Carries (net : Network n) (source sink : Fin n) (value : Int) : Prop where
  within : net.WithinCapacity
  supplied : net.exactBalance source = -value
  received : net.exactBalance sink = value
  kept : ∀ v, v ≠ source → v ≠ sink → net.exactBalance v = 0

/-- No flow on the same arcs carries more. -/
def IsMaximum (net : Network n) (source sink : Fin n) (value : Int) : Prop :=
  (∃ other, SameArcs other net ∧ other.Carries source sink value) ∧
    ∀ other more, SameArcs other net → other.Carries source sink more → more ≤ value

/-- No flow on the same arcs carries as much for less. -/
def IsCheapest (net : Network n) (source sink : Fin n) (value : Int) : Prop :=
  ∀ other, SameArcs other net → other.Carries source sink value →
    net.totalCost ≤ other.totalCost

theorem SameArcs.symm {left right : Network n} (same : SameArcs left right) :
    SameArcs right left :=
  Eq.symm same

theorem sameArcs_pushAlong (net : Network n) (face : Residual n) (amount : Int) :
    SameArcs (net.pushAlong face amount) net :=
  reset_pushAlong net face amount

theorem Fresh.exactBalance_eq_zero {net : Network n} (fresh : net.Fresh) (v : Fin n) :
    net.exactBalance v = 0 := by
  have nothing : ∀ (test : Arc n → Bool), ((net.arcs.filter test).map Arc.flow).sum = 0 := by
    intro test
    refine List.sum_eq_zero fun flow member => ?_
    obtain ⟨arc, kept, rfl⟩ := List.mem_map.mp member
    exact fresh arc (List.mem_filter.mp kept).1
  simp [exactBalance, inflow, outflow, nothing]

theorem Fresh.totalCost_eq_zero {net : Network n} (fresh : net.Fresh) : net.totalCost = 0 := by
  refine List.sum_eq_zero fun cost member => ?_
  obtain ⟨arc, kept, rfl⟩ := List.mem_map.mp member
  simp [fresh arc kept]

end MinCostFlow.Network
