import Mathlib.Algebra.Order.Ring.Int
import Mathlib.Tactic.Ring
import MinCostFlow.Proofs.Flow.Push

/-! # When a flow is the largest and the cheapest

Node prices turn sums over nodes into sums over arcs. So two flows on the same arcs can be
compared arc by arc: where one carries more than the other, that other has room, and there
the prices decide. With the prices of a cut no flow carries more; with prices that no
usable face undercuts no flow with the same balances costs less.
-/

namespace MinCostFlow

open Finset

variable {n : Nat}

namespace Network

variable {net other : Network n}

/-- Balances weighed by node prices are flows weighed by the price differences of arcs. -/
theorem sum_price_mul_exactBalance (price : Fin n → Int) (net : Network n) :
    ∑ v, price v * net.exactBalance v =
      (net.arcs.map fun arc => arc.flow * (price arc.head - price arc.tail)).sum := by
  simp only [exactBalance_eq_sum]
  induction net.arcs with
  | nil => simp
  | cons arc rest ih =>
      have credit : ∑ v, price v * arc.credit v = arc.flow * (price arc.head - price arc.tail) := by
        simp only [Arc.credit, mul_sub, mul_ite, mul_zero, sum_sub_distrib, sum_ite_eq,
          mem_univ, if_true]
        ring
      simp only [List.map_cons, List.sum_cons, mul_add, sum_add_distrib, ih, credit]

/-- If one flow exceeds another only on arcs that are worth something, and falls behind it
    only on arcs that are not, then it is worth at least as much in all. -/
theorem sum_flow_mul_le {worth : Arc n → Int} (blind : ∀ arc, worth arc.drained = worth arc)
    (same : SameArcs other net)
    (gain : ∀ (position : Nat) arc more, net.arcs[position]? = some arc →
      other.arcs[position]? = some more → arc.flow < more.flow → 0 ≤ worth arc)
    (loss : ∀ (position : Nat) arc less, net.arcs[position]? = some arc →
      other.arcs[position]? = some less → less.flow < arc.flow → worth arc ≤ 0) :
    (net.arcs.map fun arc => arc.flow * worth arc).sum ≤
      (other.arcs.map fun arc => arc.flow * worth arc).sum := by
  obtain ⟨arcs⟩ := net
  obtain ⟨others⟩ := other
  simp only [SameArcs, reset, mk.injEq] at same
  induction arcs generalizing others with
  | nil =>
      obtain rfl : others = [] := by simpa using same
      exact Int.le_refl _
  | cons arc rest ih =>
      cases others with
      | nil => simp at same
      | cons second others =>
          obtain ⟨twins, same⟩ := List.cons.inj same
          have later := ih others (fun position => gain (position + 1))
            (fun position => loss (position + 1)) same
          have equal : worth second = worth arc := by rw [← blind second, twins, blind]
          have first : arc.flow * worth arc ≤ second.flow * worth arc := by
            rcases lt_trichotomy arc.flow second.flow with more | even | less
            · exact mul_le_mul_of_nonneg_right more.le (gain 0 arc second rfl rfl more)
            · rw [even]
            · exact mul_le_mul_of_nonpos_right less.le (loss 0 arc second rfl rfl less)
          simp only [List.map_cons, List.sum_cons, equal]
          exact add_le_add first later

theorem drained_eq_of_sameArcs (same : SameArcs other net) {position : Nat} {arc second : Arc n}
    (found : net.arcs[position]? = some arc) (again : other.arcs[position]? = some second) :
    second.drained = arc.drained := by
  have entries := congrArg (fun network : Network n => network.arcs[position]?) same
  simpa [reset, found, again] using entries

theorem getElem?_of_sameArcs (same : SameArcs other net) {position : Nat} {arc : Arc n}
    (found : other.arcs[position]? = some arc) :
    ∃ before, net.arcs[position]? = some before ∧ before.tail = arc.tail ∧ before.head = arc.head ∧
      before.capacity = arc.capacity ∧ before.cost = arc.cost := by
  cases there : net.arcs[position]? with
  | none =>
      have entries := congrArg (fun network : Network n => network.arcs[position]?) same
      simp [reset, found, there] at entries
  | some before =>
      have drained := drained_eq_of_sameArcs same there found
      simp only [Arc.drained, Arc.mk.injEq, and_true] at drained
      obtain ⟨tail, head, capacity, cost⟩ := drained
      exact ⟨before, rfl, tail.symm, head.symm, capacity.symm, cost.symm⟩

theorem capacity_eq_of_sameArcs (same : SameArcs other net) {position : Nat} {arc second : Arc n}
    (found : net.arcs[position]? = some arc) (again : other.arcs[position]? = some second) :
    second.capacity = arc.capacity := by
  change second.drained.capacity = arc.drained.capacity
  rw [drained_eq_of_sameArcs same found again]

theorem usable_along_of_lt (same : SameArcs other net) (within : other.WithinCapacity)
    {position : Nat} {arc more : Arc n} (found : net.arcs[position]? = some arc)
    (again : other.arcs[position]? = some more) (lt : arc.flow < more.flow) :
    net.Usable (arc.along position) := by
  refine ⟨along_mem_residuals found, ?_⟩
  have bounds := within more (List.mem_of_getElem? again)
  have capacity := capacity_eq_of_sameArcs same found again
  simp only [Arc.along, Arc.room]
  omega

theorem usable_against_of_lt (within : other.WithinCapacity) {position : Nat} {arc less : Arc n}
    (found : net.arcs[position]? = some arc) (again : other.arcs[position]? = some less)
    (lt : less.flow < arc.flow) : net.Usable (arc.against position) := by
  refine ⟨against_mem_residuals found, ?_⟩
  have bounds := within less (List.mem_of_getElem? again)
  simp only [Arc.against]
  omega

/-- If the sink cannot be reached over usable faces, no flow on the same arcs carries more. -/
theorem value_le_of_not_reaches {source sink : Fin n} {value more : Int}
    (carries : net.Carries source sink value) (stuck : ¬ Reaches net.Usable source sink)
    (same : SameArcs other net) (others : other.Carries source sink more) : more ≤ value := by
  classical
  let side (v : Fin n) : Int := if Reaches net.Usable source v then 1 else 0
  have onward : ∀ face, net.Usable face → side face.tail ≤ side face.head := by
    intro face usable
    by_cases here : Reaches net.Usable source face.tail
    · have there : Reaches net.Usable source face.head :=
        here.trans ⟨[face], .single usable⟩
      simp only [side, here, there, if_true, le_refl]
    · simp only [side, here, if_false]
      split <;> omega
  have crossing : ∑ v, side v * net.exactBalance v ≤ ∑ v, side v * other.exactBalance v := by
    rw [sum_price_mul_exactBalance, sum_price_mul_exactBalance]
    refine sum_flow_mul_le (fun _ => rfl) same ?_ ?_
    · intro position arc second found again lt
      have step := onward _ (usable_along_of_lt same others.within found again lt)
      simp only [Arc.along] at step
      omega
    · intro position arc second found again lt
      have step := onward _ (usable_against_of_lt others.within found again lt)
      simp only [Arc.against] at step
      omega
  have sided : ∀ {network : Network n} {amount : Int}, network.Carries source sink amount →
      ∑ v, side v * network.exactBalance v = -amount := by
    intro network amount carries
    rw [Finset.sum_eq_single source]
    · simp only [side, reaches_self, if_true, one_mul, carries.supplied]
    · intro v _ inner
      by_cases target : v = sink
      · simp [side, target, stuck]
      · rw [carries.kept v inner target, mul_zero]
    · simp
  rw [sided carries, sided others] at crossing
  omega

theorem totalCost_eq (potential : Potential) (net : Network n) :
    net.totalCost = ∑ v, potential.price v * net.exactBalance v +
      (net.arcs.map fun arc =>
        arc.flow * (arc.cost + potential.price arc.tail - potential.price arc.head)).sum := by
  rw [sum_price_mul_exactBalance (fun v => potential.price v), ← List.sum_map_add, totalCost]
  congr 1
  apply List.map_congr_left
  intro arc _
  ring

theorem totalCost_add_le (potential : Potential) (same : SameArcs other net)
    (within : other.WithinCapacity)
    (fair : ∀ (position : Nat) arc second, net.arcs[position]? = some arc →
      other.arcs[position]? = some second → arc.flow ≠ second.flow → ∀ face,
        face = arc.along position ∨ face = arc.against position → net.Usable face →
          0 ≤ face.reducedCost potential) :
    net.totalCost + ∑ v, potential.price v * (other.exactBalance v - net.exactBalance v) ≤
      other.totalCost := by
  have arcs : (net.arcs.map fun arc =>
        arc.flow * (arc.cost + potential.price arc.tail - potential.price arc.head)).sum ≤
      (other.arcs.map fun arc =>
        arc.flow * (arc.cost + potential.price arc.tail - potential.price arc.head)).sum := by
    refine sum_flow_mul_le (fun _ => rfl) same ?_ ?_
    · intro position arc second found again lt
      exact fair position arc second found again lt.ne _ (.inl rfl)
        (usable_along_of_lt same within found again lt)
    · intro position arc second found again lt
      have cost := fair position arc second found again lt.ne' _ (.inr rfl)
        (usable_against_of_lt within found again lt)
      simp only [Residual.reducedCost, Arc.against] at cost
      omega
  have balances : ∑ v, potential.price v * (other.exactBalance v - net.exactBalance v) =
      ∑ v, potential.price v * other.exactBalance v - ∑ v, potential.price v * net.exactBalance v := by
    simp only [mul_sub, sum_sub_distrib]
  rw [totalCost_eq potential net, totalCost_eq potential other, balances]
  omega

/-- A flow is as cheap as another with the same balances if fair prices hold on every face
    that would have to be used to turn the one into the other. -/
theorem totalCost_le (potential : Potential) (same : SameArcs other net)
    (within : other.WithinCapacity) (balanced : ∀ v, other.exactBalance v = net.exactBalance v)
    (fair : ∀ (position : Nat) arc second, net.arcs[position]? = some arc →
      other.arcs[position]? = some second → arc.flow ≠ second.flow → ∀ face,
        face = arc.along position ∨ face = arc.against position → net.Usable face →
          0 ≤ face.reducedCost potential) :
    net.totalCost ≤ other.totalCost := by
  have bound := totalCost_add_le potential same within fair
  simpa [balanced] using bound

def capacityOut (net : Network n) (u : Fin n) : Int :=
  (net.arcs.map fun arc => if arc.tail = u then (arc.capacity : Int) else 0).sum

theorem capacityOut_eq_of_sameArcs (same : SameArcs other net) (u : Fin n) :
    other.capacityOut u = net.capacityOut u := by
  have drained : ∀ network : Network n, network.capacityOut u = network.reset.capacityOut u := by
    intro network
    simp only [capacityOut, reset, List.map_map]
    rfl
  rw [drained other, same, ← drained]

theorem sum_room_out (net : Network n) (u : Fin n) :
    ((net.out u).map Residual.room).sum = net.capacityOut u + net.exactBalance u := by
  rw [capacityOut, exactBalance_eq_sum, ← List.sum_map_add, out, residuals, sum_map_filter]
  suffices sums : ∀ (arcs : List (Arc n)) (start : Nat),
      (((arcs.zipIdx start).flatMap fun item => [item.1.along item.2, item.1.against item.2]).map
        fun face => if face.tail = u then face.room else 0).sum =
      (arcs.map fun arc =>
        (if arc.tail = u then (arc.capacity : Int) else 0) + arc.credit u).sum from sums net.arcs 0
  intro arcs
  induction arcs with
  | nil => intro start; rfl
  | cons arc rest ih =>
      intro start
      have faces : ([arc.along start, arc.against start].map
            fun face => if face.tail = u then face.room else 0).sum =
          (if arc.tail = u then (arc.capacity : Int) else 0) + arc.credit u := by
        by_cases leaves : arc.tail = u <;> by_cases arrives : arc.head = u <;>
          simp [Arc.along, Arc.against, Arc.room, Arc.credit, leaves, arrives, Int.sub_eq_add_neg]
      rw [List.zipIdx_cons, List.flatMap_cons, List.map_append, List.sum_append, ih, faces,
        List.map_cons, List.sum_cons]

theorem room_nonneg (within : net.WithinCapacity) {face : Residual n}
    (member : face ∈ net.residuals) : 0 ≤ face.room := by
  obtain ⟨arc, found, side⟩ := arc_of_mem member
  have bounds := within arc (List.mem_of_getElem? found)
  rcases side with side | side <;> rw [side] <;> simp only [Arc.along, Arc.against, Arc.room] <;>
    omega

theorem sum_room_out_nonneg (within : net.WithinCapacity) (u : Fin n) :
    0 ≤ ((net.out u).map Residual.room).sum := by
  apply List.sum_nonneg
  intro room member
  obtain ⟨face, inside, rfl⟩ := List.mem_map.mp member
  exact room_nonneg within (mem_out.mp inside).1

theorem Carries.value_le_capacityOut {source sink : Fin n} {value : Int}
    (carries : net.Carries source sink value) : value ≤ net.capacityOut source := by
  have rooms := sum_room_out_nonneg carries.within source
  rw [sum_room_out, carries.supplied] at rooms
  omega

theorem exists_isMaximum {source sink : Fin n} {value : Int}
    (carries : net.Carries source sink value) : ∃ largest, net.IsMaximum source sink largest := by
  obtain ⟨largest, attained, upper⟩ := Int.exists_greatest_of_bdd
    (P := fun value => ∃ other, SameArcs other net ∧ other.Carries source sink value)
    ⟨net.capacityOut source, by
      rintro value ⟨other, same, carries⟩
      exact capacityOut_eq_of_sameArcs same source ▸ carries.value_le_capacityOut⟩
    ⟨value, net, rfl, carries⟩
  exact ⟨largest, attained, fun other more same carries => upper more ⟨other, same, carries⟩⟩

end Network

end MinCostFlow
