import Mathlib.Data.List.Forall2
import MinCostFlow.Proofs.Solve.Outcome

/-! # Plans over edges of any kind

Edges can come as rows of columns or as edges between labels. A plan says of such edges only where
they begin and end, what each may carry and at what price, and that is enough to say when a list of
amounts, one for each edge, is a flow, and when none is better. A network depicts a plan if its arcs
are the edges in their order; then whatever is true of the flow on the arcs is true of the amounts.
-/

namespace MinCostFlow

open Network

variable {ε κ : Type} {n : Nat}

/-- Edges between places. -/
structure Plan (ε κ : Type) where
  places : List κ
  edges : List ε
  /-- Do two names mean the same place? -/
  same : κ → κ → Bool
  tail : ε → κ
  head : ε → κ
  /-- May the edge carry this much? -/
  fits : ε → Int → Prop
  cost : ε → Int

namespace Plan

/-- What edges whose ends are at a place carry in all. -/
def carried (plan : Plan ε κ) (ending : ε → κ) (flows : List Int) (place : κ) : Int :=
  (List.zipWith (fun edge flow => if plan.same (ending edge) place then flow else 0)
    plan.edges flows).sum

/-- What leaves a place beyond what arrives there. -/
def netOut (plan : Plan ε κ) (flows : List Int) (place : κ) : Int :=
  plan.carried plan.tail flows place - plan.carried plan.head flows place

def price (plan : Plan ε κ) (flows : List Int) : Int :=
  (List.zipWith (fun edge flow => flow * plan.cost edge) plan.edges flows).sum

def costMagnitude (plan : Plan ε κ) : Nat :=
  (plan.edges.map fun edge => (plan.cost edge).natAbs).sum

/-- The amounts take `value` units from source to sink, and nothing is lost on the way. -/
structure Ships (plan : Plan ε κ) (source sink : κ) (flows : List Int) (value : Int) : Prop where
  fits : List.Forall₂ plan.fits plan.edges flows
  sent : plan.netOut flows source = value
  received : plan.netOut flows sink = -value
  kept : ∀ place ∈ plan.places, plan.same place source = false → plan.same place sink = false →
    plan.netOut flows place = 0

def IsMaximum (plan : Plan ε κ) (source sink : κ) (value : Int) : Prop :=
  (∃ flows, plan.Ships source sink flows value) ∧
    ∀ flows more, plan.Ships source sink flows more → more ≤ value

/-- The amounts ship as much as the edges and the limit allow, and none ship it for less. -/
structure Optimal (plan : Plan ε κ) (source sink : κ) (limit : Option Int) (flows : List Int)
    (answer : FlowCost) : Prop where
  ships : plan.Ships source sink flows answer.flow
  cost : plan.price flows = answer.cost
  largest : ∃ maximum, plan.IsMaximum source sink maximum ∧
    answer.flow = limit.elim maximum fun bound => min bound maximum
  cheapest : ∀ others, plan.Ships source sink others answer.flow →
    plan.price flows ≤ plan.price others

/-- A row of edges with room for a unit, each of which begins where the one before it ends. -/
inductive Path (plan : Plan ε κ) : κ → List ε → κ → Prop where
  | nil (place : κ) : Path plan place [] place
  | cons {place target : κ} {edge : ε} {rest : List ε} :
    edge ∈ plan.edges → plan.fits edge 1 → plan.same (plan.tail edge) place →
    Path plan (plan.head edge) rest target → Path plan place (edge :: rest) target

/-- Somewhere a path comes back to its beginning and costs less than nothing. -/
def HasNegativeCycle (plan : Plan ε κ) : Prop :=
  ∃ first last edges, plan.Path first edges last ∧ plan.same last first ∧
    (edges.map plan.cost).sum < 0

/-- Prices of places bound the cost of a path from below, if no usable edge undercuts them. -/
theorem Path.price_le {plan : Plan ε κ} (price : κ → Int)
    (even : ∀ {left right}, plan.same left right → price left = price right)
    (fair : ∀ edge ∈ plan.edges, plan.fits edge 1 →
      price (plan.head edge) ≤ plan.cost edge + price (plan.tail edge))
    {first last : κ} {edges : List ε} (path : plan.Path first edges last) :
    price last ≤ (edges.map plan.cost).sum + price first := by
  induction path with
  | nil => simp
  | cons member fits begins _ ih =>
      have step := fair _ member fits
      have start := even begins
      simp only [List.map_cons, List.sum_cons]
      omega

theorem not_hasNegativeCycle {plan : Plan ε κ} (price : κ → Int)
    (even : ∀ {left right}, plan.same left right → price left = price right)
    (fair : ∀ edge ∈ plan.edges, plan.fits edge 1 →
      price (plan.head edge) ≤ plan.cost edge + price (plan.tail edge)) :
    ¬ plan.HasNegativeCycle := by
  rintro ⟨first, last, edges, path, closed, negative⟩
  have bound := path.price_le price even fair
  rw [even closed] at bound
  omega

/-- The arc lies where the edge lies, and may carry the same at the same price. -/
structure Matches (plan : Plan ε κ) (place : Fin n → κ) (edge : ε) (arc : Arc n) : Prop where
  tail : plan.same (plan.tail edge) (place arc.tail)
  head : plan.same (plan.head edge) (place arc.head)
  fits : ∀ amount, plan.fits edge amount ↔ 0 ≤ amount ∧ amount ≤ arc.capacity
  cost : plan.cost edge = arc.cost

/-- The nodes of the network are the places of the plan, and its arcs are the edges in their
    order. -/
structure Depicts (plan : Plan ε κ) (place : Fin n → κ) (net : Network n) : Prop where
  symm : ∀ {left right}, plan.same left right → plan.same right left
  trans : ∀ {left middle right}, plan.same left middle → plan.same middle right →
    plan.same left right
  places : plan.places = (List.finRange n).map place
  distinct : ∀ {u v}, plan.same (place u) (place v) ↔ u = v
  arcs : List.Forall₂ (plan.Matches place) plan.edges net.arcs

theorem sum_zipWith_flow {R : ε → Arc n → Prop} {share : ε → Int → Int} {part : Arc n → Int}
    (agree : ∀ edge arc, R edge arc → share edge arc.flow = part arc) {edges : List ε}
    {arcs : List (Arc n)} (rows : List.Forall₂ R edges arcs) :
    (List.zipWith share edges (arcs.map Arc.flow)).sum = (arcs.map part).sum := by
  induction rows with
  | nil => rfl
  | cons first _ ih =>
      simp only [List.map_cons, List.zipWith_cons_cons, List.sum_cons, agree _ _ first, ih]

variable {plan : Plan ε κ} {place : Fin n → κ} {net other : Network n} {s t : Fin n}
  {source sink : κ} {flows : List Int} {value : Int} {answer : FlowCost} {options : Options}

@[simp] theorem matches_drained {edge : ε} {arc : Arc n} :
    plan.Matches place edge arc.drained ↔ plan.Matches place edge arc :=
  ⟨fun fits => ⟨fits.tail, fits.head, fits.fits, fits.cost⟩,
    fun fits => ⟨fits.tail, fits.head, fits.fits, fits.cost⟩⟩

namespace Depicts

theorem refl (depicts : plan.Depicts place net) (u : Fin n) : plan.same (place u) (place u) :=
  depicts.distinct.mpr rfl

theorem same_iff (depicts : plan.Depicts place net) (named : plan.same source (place s)) {name : κ}
    {u : Fin n} (lies : plan.same name (place u)) : plan.same name source ↔ u = s := by
  rw [← depicts.distinct]
  constructor
  · intro same
    exact depicts.trans (depicts.symm lies) (depicts.trans same named)
  · intro same
    exact depicts.trans lies (depicts.trans same (depicts.symm named))

theorem of_sameArcs (depicts : plan.Depicts place net) (same : SameArcs other net) :
    plan.Depicts place other where
  symm := depicts.symm
  trans := depicts.trans
  places := depicts.places
  distinct := depicts.distinct
  arcs := by
    have blank (arcs : List (Arc n)) : List.Forall₂ (plan.Matches place) plan.edges arcs ↔
        List.Forall₂ (plan.Matches place) plan.edges (arcs.map Arc.drained) := by
      simp [List.forall₂_map_right_iff]
    rw [blank, show other.arcs.map Arc.drained = net.arcs.map Arc.drained from
      congrArg Network.arcs same, ← blank]
    exact depicts.arcs

theorem exists_carrying (depicts : plan.Depicts place net) (long : plan.edges.length = flows.length) :
    ∃ other, SameArcs other net ∧ other.arcs.map Arc.flow = flows := by
  have count : net.arcs.length = flows.length := depicts.arcs.length_eq.symm.trans long
  refine ⟨{ arcs := List.zipWith (fun arc flow => { arc with flow }) net.arcs flows }, ?_, ?_⟩
  · refine congrArg Network.mk (List.ext_getElem (by simp [count]) fun k _ _ => ?_)
    simp [Arc.drained]
  · refine List.ext_getElem (by simp [count]) fun k _ _ => ?_
    simp

theorem carried_eq (depicts : plan.Depicts place net) (named : plan.same source (place s))
    {ending : ε → κ} {node : Arc n → Fin n}
    (lies : ∀ edge arc, plan.Matches place edge arc → plan.same (ending edge) (place (node arc))) :
    plan.carried ending (net.arcs.map Arc.flow) source =
      (net.arcs.map fun arc => if node arc = s then arc.flow else 0).sum := by
  refine sum_zipWith_flow (fun edge arc fits => ?_) depicts.arcs
  simp only [depicts.same_iff named (lies edge arc fits)]

theorem netOut_eq (depicts : plan.Depicts place net) (named : plan.same source (place s)) :
    plan.netOut (net.arcs.map Arc.flow) source = -net.exactBalance s := by
  rw [netOut, depicts.carried_eq named fun _ _ fits => fits.tail,
    depicts.carried_eq named fun _ _ fits => fits.head, Network.exactBalance, Network.inflow,
    Network.outflow, sum_map_filter, sum_map_filter]
  simp
  
theorem price_eq (depicts : plan.Depicts place net) :
    plan.price (net.arcs.map Arc.flow) = net.totalCost :=
  sum_zipWith_flow (fun _ _ fits => by rw [fits.cost]) depicts.arcs

theorem costMagnitude_eq (depicts : plan.Depicts place net) :
    plan.costMagnitude = net.costMagnitude := by
  have rows := depicts.arcs
  rw [costMagnitude, Network.costMagnitude]
  generalize plan.edges = edges, net.arcs = arcs at rows
  induction rows with
  | nil => rfl
  | cons first _ ih => simp only [List.map_cons, List.sum_cons, first.cost, ih]

theorem fits_iff (depicts : plan.Depicts place net) :
    List.Forall₂ plan.fits plan.edges (net.arcs.map Arc.flow) ↔ net.WithinCapacity := by
  have rows := depicts.arcs
  rw [Network.WithinCapacity]
  generalize plan.edges = edges, net.arcs = arcs at rows
  induction rows with
  | nil => simp
  | cons first _ ih => simp [first.fits, ih]

theorem ships_iff (depicts : plan.Depicts place net) (named : plan.same source (place s))
    (named' : plan.same sink (place t)) :
    plan.Ships source sink (net.arcs.map Arc.flow) value ↔ net.Carries s t value := by
  have out := fun u => depicts.netOut_eq (depicts.refl u)
  have apart {name : κ} {u v : Fin n} (named : plan.same name (place u)) :
      plan.same (place v) name = false ↔ v ≠ u := by
    rw [← Bool.not_eq_true, depicts.same_iff named (depicts.refl v)]
  constructor
  · intro ships
    have sent := ships.sent
    have received := ships.received
    rw [depicts.netOut_eq named] at sent
    rw [depicts.netOut_eq named'] at received
    refine ⟨depicts.fits_iff.mp ships.fits, by omega, by omega, fun v inner outer => ?_⟩
    have member : place v ∈ plan.places := by simp [depicts.places]
    have kept := ships.kept _ member ((apart named).mpr inner) ((apart named').mpr outer)
    rw [out] at kept
    omega
  · intro carries
    refine ⟨depicts.fits_iff.mpr carries.within, ?_, ?_, ?_⟩
    · rw [depicts.netOut_eq named, carries.supplied]
      omega
    · rw [depicts.netOut_eq named', carries.received]
    · intro name member inner outer
      rw [depicts.places] at member
      obtain ⟨v, _, rfl⟩ := List.mem_map.mp member
      rw [out, carries.kept v ((apart named).mp inner) ((apart named').mp outer)]
      rfl

/-- Amounts that ship something are carried by some flow on the arcs. -/
theorem exists_of_ships (depicts : plan.Depicts place net) (named : plan.same source (place s))
    (named' : plan.same sink (place t)) (ships : plan.Ships source sink flows value) :
    ∃ other, SameArcs other net ∧ other.Carries s t value ∧ other.arcs.map Arc.flow = flows := by
  obtain ⟨other, same, rfl⟩ := depicts.exists_carrying ships.fits.length_eq
  exact ⟨other, same, ((depicts.of_sameArcs same).ships_iff named named').mp ships, rfl⟩

theorem isMaximum_iff (depicts : plan.Depicts place net) (named : plan.same source (place s))
    (named' : plan.same sink (place t)) :
    plan.IsMaximum source sink value ↔ net.IsMaximum s t value := by
  have ships {other : Network n} (same : SameArcs other net) {amount : Int} :
      plan.Ships source sink (other.arcs.map Arc.flow) amount ↔ other.Carries s t amount :=
    (depicts.of_sameArcs same).ships_iff named named'
  constructor
  · rintro ⟨⟨flows, begins⟩, upper⟩
    obtain ⟨other, same, carries, _⟩ := depicts.exists_of_ships named named' begins
    exact ⟨⟨other, same, carries⟩, fun third more again thirds =>
      upper _ more ((ships again).mpr thirds)⟩
  · rintro ⟨⟨other, same, carries⟩, upper⟩
    refine ⟨⟨_, (ships same).mpr carries⟩, fun flows more others => ?_⟩
    obtain ⟨third, again, thirds, _⟩ := depicts.exists_of_ships named named' others
    exact upper third more again thirds

/-- What is optimal on the arcs is optimal on the edges. -/
theorem optimal (depicts : plan.Depicts place net) (named : plan.same source (place s))
    (named' : plan.same sink (place t)) {limit : Option Int} {run : Run n}
    (optimal : run.Optimal net s t limit answer) :
    plan.Optimal source sink limit (run.network.arcs.map Arc.flow) answer := by
  have shown := depicts.of_sameArcs optimal.same
  obtain ⟨maximum, largest, flow⟩ := optimal.largest
  refine ⟨(shown.ships_iff named named').mpr optimal.carries, ?_,
    ⟨maximum, (depicts.isMaximum_iff named named').mpr largest, flow⟩, fun others ships => ?_⟩
  · rw [shown.price_eq, optimal.cost]
  · obtain ⟨other, same, carries, rfl⟩ := shown.exists_of_ships named named' ships
    rw [shown.price_eq, (shown.of_sameArcs same).price_eq]
    exact optimal.cheapest other same carries

theorem exists_edge (depicts : plan.Depicts place net) {position : Nat} {arc : Arc n}
    (found : net.arcs[position]? = some arc) : ∃ edge ∈ plan.edges, plan.Matches place edge arc := by
  obtain ⟨short, rfl⟩ := List.getElem?_eq_some_iff.mp found
  have long : position < plan.edges.length := depicts.arcs.length_eq ▸ short
  exact ⟨_, List.getElem_mem long, depicts.arcs.get long short⟩

theorem exists_path (depicts : plan.Depicts place net) (fresh : net.Fresh) {u v : Fin n}
    {faces : List (Residual n)} (walk : Walk net.UsableForward u faces v) {name : κ}
    (named : plan.same name (place u)) :
    ∃ edges target, plan.Path name edges target ∧ plan.same target (place v) ∧
      (edges.map plan.cost).sum = walkCost faces := by
  induction walk generalizing name with
  | nil => exact ⟨[], name, .nil name, named, rfl⟩
  | @cons face rest v usable _ ih =>
      obtain ⟨arc, found, side⟩ := arc_of_mem usable.1.1
      have forward := usable.2
      have room := usable.1.2
      cases side with
      | inr against =>
          rw [against] at forward
          cases forward
      | inl along =>
          rw [along] at room named
          obtain ⟨edge, member, fits⟩ := depicts.exists_edge found
          have empty := fresh arc (List.mem_of_getElem? found)
          have open' : plan.fits edge 1 := by
            rw [fits.fits]
            simp only [Arc.along, Arc.room, empty] at room
            omega
          have onward : plan.same (plan.head edge) (place face.head) := along ▸ fits.head
          obtain ⟨edges, target, path, arrives, cost⟩ := ih onward
          refine ⟨edge :: edges, target, ?_, arrives, ?_⟩
          · exact .cons member open' (depicts.trans fits.tail (depicts.symm named)) path
          · rw [List.map_cons, List.sum_cons, cost, fits.cost, along]
            rfl

theorem hasNegativeCycle (depicts : plan.Depicts place net) (fresh : net.Fresh)
    (cyclic : net.HasNegativeCycle) : plan.HasNegativeCycle := by
  obtain ⟨u, faces, walk, negative⟩ := cyclic
  obtain ⟨edges, target, path, closed, cost⟩ := depicts.exists_path fresh walk (depicts.refl u)
  exact ⟨_, target, edges, path, closed, cost ▸ negative⟩

/-- A solve of a network that depicts a plan answers, and with amounts that are optimal for the
    plan. -/
theorem exists_answer (depicts : plan.Depicts place net) (fresh : net.Fresh)
    (acyclic : ¬ plan.HasNegativeCycle) (small : 4 * (plan.costMagnitude : Int) < horizon)
    (named : plan.same source (place s)) (named' : plan.same sink (place t))
    (cap : ∀ bound, options.maxFlow = some bound → 0 ≤ bound)
    (allow : options.allowNegativeCosts = true) (unverified : options.verifyConservation = false) :
    ∃ answer, (net.solve s.val t.val options).Optimal net s t options.maxFlow answer ∧
      plan.Optimal source sink options.maxFlow
        ((net.solve s.val t.val options).network.arcs.map Arc.flow) answer := by
  obtain ⟨answer, optimal⟩ := fresh.exists_optimal
    (fun cyclic => acyclic (depicts.hasNegativeCycle fresh cyclic)) (depicts.costMagnitude_eq ▸ small)
    s t cap allow unverified
  exact ⟨answer, optimal, depicts.optimal named named' optimal⟩

end Depicts

end Plan

end MinCostFlow
