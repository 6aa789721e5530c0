import Mathlib.Algebra.Order.Ring.Int
import MinCostFlow.Network.Lemmas
import MinCostFlow.Potential

/-! # Walks along faces of arcs

A walk is a row of faces in which each begins where the one before it ends. Its cost is
a plain sum, and with node prices the sum of reduced costs differs from it by the
prices of the two ends only. So around a closed walk prices do not matter.
-/

namespace MinCostFlow

/-- A row of allowed faces that leads from one node to another. -/
inductive Walk {n : Nat} (allowed : Residual n → Prop) : Fin n → List (Residual n) → Fin n → Prop
  where
  | nil (u : Fin n) : Walk allowed u [] u
  | cons {face : Residual n} {rest : List (Residual n)} {v : Fin n} :
    allowed face → Walk allowed face.head rest v → Walk allowed face.tail (face :: rest) v

/-- The price of a node, zero beyond the end of the prices. -/
def Potential.price (potential : Potential) {n : Nat} (v : Fin n) : Int := potential[v.val]?.getD 0

@[simp] theorem Potential.price_zero {n : Nat} (v : Fin n) : (Potential.zero n).price v = 0 := by
  simp [price, zero]

def Residual.reducedCost {n : Nat} (potential : Potential) (face : Residual n) : Int :=
  face.cost + potential.price face.tail - potential.price face.head

def walkCost {n : Nat} (faces : List (Residual n)) : Int := (faces.map Residual.cost).sum

def reducedWalkCost {n : Nat} (potential : Potential) (faces : List (Residual n)) : Int :=
  (faces.map (Residual.reducedCost potential)).sum

namespace Walk

variable {n : Nat} {allowed : Residual n → Prop}

theorem append {u v w : Fin n} {first second : List (Residual n)} (left : Walk allowed u first v)
    (right : Walk allowed v second w) : Walk allowed u (first ++ second) w := by
  induction left with
  | nil => exact right
  | cons fits _ ih => exact .cons fits (ih right)

theorem single {face : Residual n} (fits : allowed face) :
    Walk allowed face.tail [face] face.head :=
  .cons fits (.nil _)

theorem split {u w : Fin n} {first second : List (Residual n)}
    (walk : Walk allowed u (first ++ second) w) :
    ∃ v, Walk allowed u first v ∧ Walk allowed v second w := by
  induction first generalizing u with
  | nil => exact ⟨u, .nil u, walk⟩
  | cons face rest ih =>
    cases walk with
    | cons fits tail =>
      obtain ⟨v, left, right⟩ := ih tail
      exact ⟨v, .cons fits left, right⟩

theorem mono {wider : Residual n → Prop} (le : ∀ face, allowed face → wider face) {u v : Fin n}
    {faces : List (Residual n)} (walk : Walk allowed u faces v) : Walk wider u faces v := by
  induction walk with
  | nil => exact .nil _
  | cons fits _ ih => exact .cons (le _ fits) ih

theorem allowed_of_mem {u v : Fin n} {faces : List (Residual n)} (walk : Walk allowed u faces v)
    {face : Residual n} (member : face ∈ faces) : allowed face := by
  induction walk with
  | nil => simp at member
  | cons fits _ ih =>
    rcases List.mem_cons.mp member with rfl | member
    · exact fits
    · exact ih member

/-- Reduced costs along a walk add up to its cost and the prices of its ends. -/
theorem reducedWalkCost_eq (potential : Potential) {u v : Fin n} {faces : List (Residual n)}
    (walk : Walk allowed u faces v) :
    reducedWalkCost potential faces = walkCost faces + potential.price u - potential.price v := by
  induction walk with
  | nil => simp [reducedWalkCost, walkCost]
  | cons fits _ ih =>
    simp only [reducedWalkCost, walkCost, List.map_cons, List.sum_cons] at ih ⊢
    rw [ih, Residual.reducedCost]
    omega

theorem reducedWalkCost_closed (potential : Potential) {u : Fin n} {faces : List (Residual n)}
    (walk : Walk allowed u faces u) : reducedWalkCost potential faces = walkCost faces := by
  rw [walk.reducedWalkCost_eq]
  omega

end Walk

namespace Network

variable {n : Nat}

/-- A face can be used while it has room. -/
def Usable (net : Network n) (face : Residual n) : Prop := face ∈ net.residuals ∧ 0 < face.room

def UsableForward (net : Network n) (face : Residual n) : Prop := net.Usable face ∧ face.forward

/-- Is a node reached by a walk of allowed faces? -/
def Reaches (allowed : Residual n → Prop) (u v : Fin n) : Prop := ∃ faces, Walk allowed u faces v

/-- A closed walk of allowed faces that costs less than nothing, through a given node. -/
def NegativeCycleAt (allowed : Residual n → Prop) (u : Fin n) : Prop :=
  ∃ faces, Walk allowed u faces u ∧ walkCost faces < 0

/-- Somewhere is a closed walk of usable arcs that costs less than nothing. -/
def HasNegativeCycle (net : Network n) : Prop := ∃ u, NegativeCycleAt net.UsableForward u

theorem usableForward_along_iff {net : Network n} {position : Nat} {arc : Arc n}
    (found : net.arcs[position]? = some arc) :
    net.UsableForward (arc.along position) ↔ arc.Open := by
  simp only [UsableForward, Usable, along_mem_residuals found, true_and]
  simp [Arc.along, Arc.Open]

theorem reaches_self (allowed : Residual n → Prop) (u : Fin n) : Reaches allowed u u :=
  ⟨[], .nil u⟩

theorem Reaches.trans {allowed : Residual n → Prop} {u v w : Fin n} (left : Reaches allowed u v)
    (right : Reaches allowed v w) : Reaches allowed u w := by
  obtain ⟨first, left⟩ := left
  obtain ⟨second, right⟩ := right
  exact ⟨first ++ second, left.append right⟩

end Network

end MinCostFlow
