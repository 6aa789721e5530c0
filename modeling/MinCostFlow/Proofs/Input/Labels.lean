import MinCostFlow.Proofs.Flow.Plan
import MinCostFlow.Proofs.History.Reset
import MinCostFlow.Proofs.Input.Table

/-! # Labelled graphs from edges to tables

A graph is turned into a network whose nodes are the places of its labels and whose arcs are its
listed edges, with capacities rounded down and costs cut down to whole numbers. Whole amounts fit
such an arc exactly when they fit the edge. So the best flow on the arcs is the best on the edges,
and the table takes it back to the labels.
-/

namespace MinCostFlow.Labelled

variable {graph : Graph} {capacityName costName : String} {edge : Edge} {options : Options}

/-- The edge has a finite capacity that is not below zero and can be examined, and a finite cost. -/
structure Edge.Admissible (capacityName costName : String) (edge : Edge) : Prop where
  capacity : ∃ value bound, edge.attributes.get? capacityName = some value ∧
    value.magnitude? = some (.finite bound) ∧ 0 ≤ bound ∧
    ∀ number, value = .whole number → number.natAbs < Value.examinable
  cost : ∃ price, (edge.number costName).magnitude? = some (.finite price)

/-- Does so much fit the capacity as it was given, fraction and all? -/
def Edge.Holds (capacityName : String) (edge : Edge) (amount : Int) : Prop :=
  0 ≤ amount ∧ ∃ value bound, edge.attributes.get? capacityName = some value ∧
    value.magnitude? = some (.finite bound) ∧ (amount : ℚ) ≤ bound

/-- The cost of an edge without its fraction, zero if it is no number. -/
def Edge.price (costName : String) (edge : Edge) : Int :=
  match (edge.number costName).wholeNumber with
  | .ok price => price
  | .error _ => 0

theorem Edge.Alike.admissible {stored seen : Edge} (alike : stored.Alike seen)
    (admissible : stored.Admissible capacityName costName) : seen.Admissible capacityName costName := by
  obtain ⟨capacity, cost⟩ := admissible
  simp only [Edge.number, alike.attributes] at capacity cost
  exact ⟨capacity, cost⟩

namespace Edge.Admissible

theorem capacity_eq (admissible : edge.Admissible capacityName costName) :
    ∃ capacity : Int, edge.capacity capacityName = .ok capacity ∧ 0 ≤ capacity ∧
      ∀ amount, edge.Holds capacityName amount ↔ 0 ≤ amount ∧ amount ≤ capacity := by
  obtain ⟨value, bound, given, worth, nonneg, small⟩ := admissible.capacity
  obtain ⟨found, examined, _, sign, floor⟩ := Value.amount?_of_magnitude worth small
  have whole := floor nonneg
  refine ⟨found.whole, ?_, by rw [whole]; exact Int.floor_nonneg.mpr nonneg, fun amount => ?_⟩
  · have above : ¬ found.belowZero = true := fun below => not_lt.mpr nonneg (sign.mp below)
    simp only [Edge.capacity, given, examined, bind, Except.bind, if_neg above]
    rfl
  · rw [whole, Int.le_floor]
    refine and_congr_right fun _ => ⟨?_, fun le => ⟨value, bound, given, worth, le⟩⟩
    rintro ⟨value', bound', given', worth', le⟩
    obtain rfl := Option.some.inj (given.symm.trans given')
    rw [worth] at worth'
    cases worth'
    exact le

theorem cost_eq (admissible : edge.Admissible capacityName costName)
    (small : (edge.price costName).natAbs < Value.examinable) :
    edge.cost costName = .ok (edge.price costName) ∧
      (edge.number costName).wholeNumber = .ok (edge.price costName) := by
  obtain ⟨amount, worth⟩ := admissible.cost
  obtain ⟨found, examined, whole, _⟩ := Value.amount?_of_magnitude worth fun number same => by
    rw [Edge.price, same] at small
    exact small
  have price : edge.price costName = found.whole := by rw [Edge.price, whole]
  rw [Edge.cost, examined, price]
  exact ⟨rfl, whole⟩

end Edge.Admissible

theorem mapM_forall₂ {α β : Type} {f : α → Except Fault β} {R : α → β → Prop} {items : List α}
    (each : ∀ item ∈ items, ∃ result, f item = .ok result ∧ R item result) :
    ∃ results, items.mapM f = .ok results ∧ List.Forall₂ R items results := by
  induction items with
  | nil => exact ⟨[], rfl, .nil⟩
  | cons item rest ih =>
      obtain ⟨⟨result, first, related⟩, others⟩ := List.forall_mem_cons.mp each
      obtain ⟨results, later, rows⟩ := ih others
      exact ⟨result :: results, by rw [List.mapM_cons, first, later]; rfl, .cons related rows⟩

namespace Graph

def plan (graph : Graph) (capacityName costName : String) : Plan Edge Value where
  places := graph.labels
  edges := graph.listed
  same := Value.same
  tail := Edge.source
  head := Edge.target
  fits := Edge.Holds capacityName
  cost := Edge.price costName

/-- A label is known to the network by a number. -/
def Numbers (graph : Graph) (name : Value) (number : Int) : Prop :=
  ∃ (k : Nat) (label : Value), number = k ∧ graph.labels[k]? = some label ∧ name.same label

/-- The row leads where the edge leads, and can hold the same at the same price. -/
structure RowOf (graph : Graph) (capacityName costName : String) (edge : Edge) (row : ArcRow) :
    Prop where
  tail : graph.Numbers edge.source row.tail
  head : graph.Numbers edge.target row.head
  nonneg : 0 ≤ row.capacity
  fits : ∀ amount, edge.Holds capacityName amount ↔ 0 ≤ amount ∧ amount ≤ row.capacity
  cost : edge.price costName = row.cost

def labelOf (graph : Graph) {n : Nat} (v : Fin n) : Value := (graph.labels[v.val]?).getD .nothing

theorem numbers_lt {name : Value} {k : Nat} (numbers : graph.Numbers name k) :
    k < graph.labels.length := by
  obtain ⟨_, _, same, found, _⟩ := numbers
  obtain rfl := Int.ofNat_inj.mp same
  exact (List.getElem?_eq_some_iff.mp found).1

theorem same_labelOf {n : Nat} {v : Fin n} {name : Value} (numbers : graph.Numbers name v.val) :
    name.same (graph.labelOf v) := by
  obtain ⟨k, other, same, found, alike⟩ := numbers
  obtain rfl := Int.ofNat_inj.mp same
  rwa [labelOf, found]

namespace Grown

theorem place_eq (grown : graph.Grown) {name : Value} (found : ∃ label ∈ graph.labels, name.same label) :
    ∃ k : Nat, graph.place name = .ok k ∧ graph.Numbers name k := by
  obtain ⟨label, member, same⟩ := found
  have isLabel : name.isLabel = true :=
    (Value.isLabel_of_same name label same).trans (grown.labels label member)
  have passes : (graph.index? name).isSome = true := by
    rw [index?, List.findIdx?_isSome]
    exact List.any_eq_true.mpr ⟨label, member, same⟩
  obtain ⟨k, first⟩ := Option.isSome_iff_exists.mp passes
  refine ⟨k, by rw [place, if_pos isLabel, first], k, ?_⟩
  have there := List.of_findIdx?_eq_some first
  cases entry : graph.labels[k]? with
  | none =>
      rw [entry] at there
      cases there
  | some other =>
      rw [entry] at there
      exact ⟨other, rfl, rfl, there⟩

theorem same_labels_iff (grown : graph.Grown) {i j : Nat} (first : i < graph.labels.length)
    (second : j < graph.labels.length) : graph.labels[i].same graph.labels[j] = true ↔ i = j := by
  have distinct := List.pairwise_iff_getElem.mp grown.apart
  constructor
  · intro same
    rcases Nat.lt_trichotomy i j with less | equal | more
    · rw [distinct i j first second less] at same
      cases same
    · exact equal
    · rw [Value.same_comm, distinct j i second first more] at same
      cases same
  · rintro rfl
    exact Value.same_refl _

theorem exists_row (grown : graph.Grown) (member : edge ∈ graph.listed)
    (admissible : ∀ edge ∈ graph.edges, edge.Admissible capacityName costName)
    (small : (edge.price costName).natAbs < Value.examinable) :
    ∃ row, (do
        let tail ← graph.place edge.source
        let head ← graph.place edge.target
        let capacity ← edge.capacity capacityName
        let cost ← edge.cost costName
        return ({ tail, head, capacity, cost } : ArcRow)) = .ok row ∧
      graph.RowOf capacityName costName edge row := by
  obtain ⟨stored, inside, alike⟩ := grown.exists_stored member
  have sound := alike.admissible (admissible stored inside)
  obtain ⟨⟨u, first, first'⟩, v, second, second'⟩ := grown.ends stored inside
  obtain ⟨i, tail, numbers⟩ :=
    grown.place_eq ⟨u, first, Value.same_trans (Value.same_symm alike.source) first'⟩
  obtain ⟨j, head, numbers'⟩ :=
    grown.place_eq ⟨v, second, Value.same_trans (Value.same_symm alike.target) second'⟩
  obtain ⟨capacity, holds, nonneg, fits⟩ := sound.capacity_eq
  obtain ⟨cost, _⟩ := sound.cost_eq small
  refine ⟨{ tail := i, head := j, capacity, cost := edge.price costName }, ?_,
    numbers, numbers', nonneg, fits, rfl⟩
  rw [tail, head, holds, cost]
  rfl

end Grown

theorem exists_rows (grown : graph.Grown)
    (admissible : ∀ edge ∈ graph.edges, edge.Admissible capacityName costName)
    (small : ∀ edge ∈ graph.listed, (edge.price costName).natAbs < Value.examinable) :
    ∃ rows, graph.rows capacityName costName = .ok rows ∧
      List.Forall₂ (graph.RowOf capacityName costName) graph.listed rows := by
  rw [rows, if_pos grown.directed]
  exact mapM_forall₂ fun edge member => grown.exists_row member admissible (small edge member)

theorem depicts (grown : graph.Grown) {n : Nat} (count : graph.labels.length = n) {net : Network n}
    (rows : List.Forall₂ (graph.RowOf capacityName costName) graph.listed (net.arcs.map Arc.row)) :
    (graph.plan capacityName costName).Depicts graph.labelOf net := by
  subst count
  have label (v : Fin graph.labels.length) : graph.labelOf v = graph.labels[v.val] := by
    simp [labelOf]
  refine { symm := Value.same_symm, trans := Value.same_trans, places := ?_, distinct := ?_, arcs := ?_ }
  · refine List.ext_getElem (by simp [plan]) fun k _ _ => ?_
    simp [plan, label]
  · intro u v
    rw [label, label, Fin.ext_iff]
    exact grown.same_labels_iff u.isLt v.isLt
  · rw [List.forall₂_map_right_iff] at rows
    refine rows.imp fun edge arc row => ?_
    exact ⟨same_labelOf row.tail, same_labelOf row.head, row.fits, row.cost⟩

theorem RowOf.admissible {row : ArcRow} (rowOf : graph.RowOf capacityName costName edge row) {n : Nat}
    (count : graph.labels.length = n) : row.Admissible n := by
  obtain ⟨i, _, tail, first, _⟩ := rowOf.tail
  obtain ⟨j, _, head, second, _⟩ := rowOf.head
  have inside := (List.getElem?_eq_some_iff.mp first).1
  have inside' := (List.getElem?_eq_some_iff.mp second).1
  exact ⟨by omega, by omega, rowOf.nonneg⟩

/-- What is left to do once the network stands. -/
def answer (graph : Graph) {n : Nat} (run : Run n) : Except Fault Answer :=
  run.outcome.map fun total =>
    { total, table := .ofListed graph.labels (graph.listed.zip (run.network.arcs.map Arc.flow)) }

/-- A graph whose edges are admissible is a network that depicts its plan, which is solved. -/
theorem solve_eq (grown : graph.Grown)
    (admissible : ∀ edge ∈ graph.edges, edge.Admissible capacityName costName)
    (small : ∀ edge ∈ graph.listed, (edge.price costName).natAbs < Value.examinable)
    {source sink : Value} (begins : ∃ label ∈ graph.labels, source.same label)
    (ends : ∃ label ∈ graph.labels, sink.same label) (options : Options) :
    ∃ (n : Nat) (net : Network n) (s t : Fin n), net.Fresh ∧
      (graph.plan capacityName costName).Depicts graph.labelOf net ∧
      source.same (graph.labelOf s) ∧ sink.same (graph.labelOf t) ∧
      graph.solve source sink capacityName costName options =
        graph.answer (net.solve s.val t.val options) := by
  obtain ⟨rows, read, rowsOf⟩ := exists_rows grown admissible small
  obtain ⟨i, first, numbers⟩ := grown.place_eq begins
  obtain ⟨j, second, numbers'⟩ := grown.place_eq ends
  have inside := numbers_lt numbers
  have inside' := numbers_lt numbers'
  have count : graph.labels.length = max 1 graph.labels.length := by omega
  obtain ⟨arcs, built, same, empty⟩ := Network.addRows_of_admissible (fun row member => by
    obtain ⟨edge, _, rowOf⟩ := exists_of_forall₂ rowsOf member
    exact rowOf.admissible count) (Network.empty (max 1 graph.labels.length))
  have built : (Network.empty (max 1 graph.labels.length)).addRows rows = .ok { arcs } := built
  refine ⟨_, { arcs }, ⟨i, by omega⟩, ⟨j, by omega⟩, empty, ?_, same_labelOf numbers,
    same_labelOf numbers', ?_⟩
  · exact depicts grown count (same ▸ rowsOf)
  · rw [solve, read]
    simp only [bind, Except.bind, first, second, built]
    cases outcome : (Network.solve { arcs } i j options).outcome with
    | error fault => rw [answer, outcome]; rfl
    | ok total => rw [answer, outcome]; rfl

/-- Amounts are priced as the plan prices them, if the table has them. -/
theorem costOfFlow_eq {table : FlowTable Value} {flows : List Int}
    (long : graph.listed.length = flows.length)
    (found : ∀ edge flow, (edge, flow) ∈ graph.listed.zip flows →
      table.amount? edge = some (.whole flow))
    (whole : ∀ edge ∈ graph.listed, (edge.number costName).wholeNumber = .ok (edge.price costName)) :
    graph.costOfFlow table costName = .ok ((graph.plan capacityName costName).price flows) := by
  have from_start (start : Int) : graph.listed.foldlM (fun total edge => do
        let flow ← ((table.amount? edge).getD (.whole 0)).wholeNumber
        let cost ← (edge.number costName).wholeNumber
        return total + flow * cost) start =
      (.ok (start + (List.zipWith (fun edge flow => flow * edge.price costName)
        graph.listed flows).sum) : Except Fault Int) := by
    generalize graph.listed = edges at long found whole
    induction edges generalizing flows start with
    | nil =>
        obtain rfl : flows = [] := List.length_eq_zero_iff.mp long.symm
        exact congrArg Except.ok (Int.add_zero start).symm
    | cons edge rest ih =>
        cases flows with
        | nil => cases long
        | cons flow others =>
            obtain ⟨own, later⟩ := List.forall_mem_cons.mp whole
            have here := found edge flow List.mem_cons_self
            rw [List.foldlM_cons, here, own]
            refine (ih (start + flow * edge.price costName) (Nat.succ.inj long)
              (fun other amount member => found other amount (List.mem_cons_of_mem _ member)) later).trans ?_
            rw [List.zipWith_cons_cons, List.sum_cons, Int.add_assoc]
  rw [costOfFlow, from_start, Int.zero_add]
  rfl

/-- Take any directed graph whose edges are admissible and in which no cycle of usable edges costs
    less than nothing. Then a solve between two of its labels answers with a table that has a row for
    each label and an amount for each edge. The amounts fit the capacities as they were given, they
    are as large and as cheap as these and the limit allow, and pricing the table gives what the
    solve says it costs. -/
theorem solve_fills_table {parallel : Bool} {labels : List Value} {edges : List Edge}
    (built : build true parallel labels edges = .ok graph)
    (admissible : ∀ edge ∈ graph.edges, edge.Admissible capacityName costName)
    (small : 4 * ((graph.plan capacityName costName).costMagnitude : Int) < horizon)
    (acyclic : ¬ (graph.plan capacityName costName).HasNegativeCycle)
    {source sink : Value} (begins : ∃ label ∈ graph.labels, source.same label)
    (ends : ∃ label ∈ graph.labels, sink.same label)
    (cap : ∀ bound, options.maxFlow = some bound → 0 ≤ bound)
    (allow : options.allowNegativeCosts = true) (unverified : options.verifyConservation = false) :
    graph.ListedAs graph.listed ∧ ∃ (found : Answer) (flows : List Int),
      graph.solve source sink capacityName costName options = .ok found ∧
      found.table.Tabulates graph flows ∧
      (graph.plan capacityName costName).Optimal source sink options.maxFlow flows found.total ∧
      graph.priceOf found costName = .ok found.total.cost := by
  have grown := grown_build built
  have examinable : ∀ edge ∈ graph.listed, (edge.price costName).natAbs < Value.examinable := by
    intro edge member
    have part : (edge.price costName).natAbs ≤ (graph.plan capacityName costName).costMagnitude :=
      List.le_sum_of_mem (List.mem_map_of_mem member)
    have wide : horizon ≤ (Value.examinable : Int) := by decide +kernel
    omega
  have whole : ∀ edge ∈ graph.listed,
      (edge.number costName).wholeNumber = .ok (edge.price costName) := by
    intro edge member
    obtain ⟨stored, inside, alike⟩ := grown.exists_stored member
    exact ((alike.admissible (admissible stored inside)).cost_eq (examinable edge member)).2
  obtain ⟨n, net, s, t, fresh, depicts, first, second, solved⟩ :=
    solve_eq grown admissible examinable begins ends options
  obtain ⟨total, run, optimal⟩ :=
    depicts.exists_answer fresh acyclic small first second cap allow unverified
  have long := optimal.ships.fits.length_eq
  have tabulates := tabulates_ofListed grown long
  refine ⟨grown.listedAs, { total, table := _ }, _, ?_, tabulates, optimal, ?_⟩
  · rw [solved, answer, run.answered]
    rfl
  · refine (costOfFlow_eq long (fun edge flow member => ?_) whole).trans
      (congrArg Except.ok optimal.cost)
    exact (FlowTable.amount?_mapAmounts Value.whole _ edge).trans
      (congrArg (Option.map Value.whole) (tabulates.found edge flow member))

def numbered (source target : Int) (capacity : Value) (cost : Int) : Edge where
  source := .whole source
  target := .whole target
  attributes := [("capacity", capacity), ("weight", .whole cost)]

/-- Two parallel edges, one of them with half a unit to spare, behind one that pays. -/
def forked : Graph where
  directed := true
  parallel := true
  labels := [.whole 0, .whole 1, .whole 2]
  edges := [{ numbered 0 1 (.whole 3) (-1) with key := .whole 0 },
    { numbered 1 2 (.real (.finite false 3 (-1))) 2 with key := .whole 0 },
    { numbered 1 2 (.whole 1) 3 with key := .whole 1 }]

theorem build_forked : build true true [.whole 0] [numbered 0 1 (.whole 3) (-1),
    numbered 1 2 (.real (.finite false 3 (-1))) 2, numbered 1 2 (.whole 1) 3] = .ok forked := by
  rfl

theorem not_hasNegativeCycle_forked : ¬ (forked.plan "capacity" "weight").HasNegativeCycle := by
  let rank (label : Value) : Int :=
    if label.same (.whole 1) then -1 else if label.same (.whole 2) then 1 else 0
  have fair : ∀ edge ∈ forked.listed, rank edge.target ≤ edge.price "weight" + rank edge.source := by
    decide +kernel
  refine Plan.not_hasNegativeCycle rank (fun same => ?_) fun edge member _ => fair edge member
  simp only [rank, Value.same_congr same]

theorem admissible_forked : ∀ edge ∈ forked.edges, edge.Admissible "capacity" "weight" := by
  simp only [forked, List.forall_mem_cons, List.not_mem_nil, false_implies, implies_true, and_true]
  refine ⟨⟨⟨.whole 3, 3, rfl, by simp [Value.magnitude?], by norm_num, ?_⟩, -1, rfl⟩,
    ⟨⟨.real (.finite false 3 (-1)), 3 / 2, rfl, ?_, by norm_num, nofun⟩, 2, rfl⟩,
    ⟨⟨.whole 1, 1, rfl, by simp [Value.magnitude?], by norm_num, ?_⟩, 3, rfl⟩⟩
  · rintro _ ⟨⟩
    decide +kernel
  · simp [Value.magnitude?, Binary64.magnitude, Binary64.signed]
    norm_num
  · rintro _ ⟨⟩
    decide +kernel

theorem solve_fills_table_forked :
    forked.ListedAs forked.listed ∧ ∃ (found : Answer) (flows : List Int),
      forked.solve (.whole 0) (.whole 2) "capacity" "weight" { maxFlow := some 7 } = .ok found ∧
      found.table.Tabulates forked flows ∧
      (forked.plan "capacity" "weight").Optimal (.whole 0) (.whole 2) (some 7) flows found.total ∧
      forked.priceOf found "weight" = .ok found.total.cost := by
  refine solve_fills_table build_forked admissible_forked
    (by decide +kernel) not_hasNegativeCycle_forked ⟨.whole 0, by simp [forked], rfl⟩
    ⟨.whole 2, by simp [forked], rfl⟩ ?_ rfl rfl
  intro bound given
  cases given
  decide

end Graph

end MinCostFlow.Labelled
