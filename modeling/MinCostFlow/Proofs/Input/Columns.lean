import MinCostFlow.EdgeList
import MinCostFlow.Proofs.Flow.Plan
import MinCostFlow.Proofs.History.Reset
import MinCostFlow.Proofs.Solve.Conservation

/-! # Edge lists from columns to flows

An edge list is turned down for its own sake in two places, before the network is built and when
its terminals are looked up. What passes both is a network whose arcs are the rows in their order,
and so the flows come back in the order of the columns. They fit words because the capacities do;
the totals need not.
-/

namespace MinCostFlow

def Value.wholes (numbers : List Int) : Value := .list (numbers.map .whole)

namespace Value

theorem commonShape?_wholes (numbers : List Int) :
    commonShape? (numbers.map .whole) = some [numbers.length] := by
  induction numbers with
  | nil => rw [List.map_nil, commonShape?]; rfl
  | cons number rest ih =>
      cases rest with
      | nil => simp [commonShape?, shape?]
      | cons second others =>
          simp only [List.map_cons] at ih ⊢
          simp [commonShape?, shape?, ih]

theorem leavesOfEach_wholes (numbers : List Int) :
    leavesOfEach (numbers.map .whole) = numbers.map .whole := by
  induction numbers with
  | nil => rw [List.map_nil, leavesOfEach]
  | cons number rest ih => simp [leavesOfEach, leaves, ih]

theorem column_wholes {numbers : List Int} (fits : ∀ number ∈ numbers, Word.Fits number)
    (name : Column) : (wholes numbers).column name = .ok numbers := by
  have words : (numbers.map whole).mapM word = .ok numbers := by
    rw [List.mapM_map]
    have stored := Word.mapM_store (fun number : Int => number) numbers
    rw [if_pos fits, List.map_id'] at stored
    exact stored
  simp only [wholes, column, shape?, commonShape?_wholes, leaves, leavesOfEach_wholes, words]
  rfl

end Value

theorem Network.outcome_ne_argument {n : Nat} (net : Network n) (source sink : Fin n)
    {options : Options} (cap : ∀ bound, options.maxFlow = some bound → 0 ≤ bound)
    (allow : options.allowNegativeCosts = true) (cause : BadArgument) :
    (net.solve source.val sink.val options).outcome ≠ .error (.argument cause) := by
  by_cases apart : source = sink
  · subst apart
    rw [net.solve_self]
    intro refused
    cases refused
  · rw [net.solve_eq apart]
    rcases objection?_eq net cap allow with ⟨silent, _⟩ | ⟨_, _, _, objects⟩
    · rw [silent]
      obtain ⟨_, _, _, _, _, faults⟩ := net.exists_course apart cap
      exact fun refused => (faults _ refused).2 cause rfl
    · rw [objects]
      intro refused
      cases refused

namespace EdgeList

variable {nodes source sink : Int} {edges : EdgeList} {options : Options}

/-- Every number of every column fits a word. -/
structure Storable (edges : EdgeList) : Prop where
  tail : ∀ node ∈ edges.tail, Word.Fits node
  head : ∀ node ∈ edges.head, Word.Fits node
  capacity : ∀ amount ∈ edges.capacity, Word.Fits amount
  cost : ∀ price ∈ edges.cost, Word.Fits price

/-- The columns are as long as each other, name nodes only, and hold no capacity below zero. -/
structure Valid (edges : EdgeList) (nodes : Int) : Prop where
  heads : edges.head.length = edges.tail.length
  capacities : edges.capacity.length = edges.tail.length
  costs : edges.cost.length = edges.tail.length
  tail : ∀ node ∈ edges.tail, 0 ≤ node ∧ node < nodes
  head : ∀ node ∈ edges.head, 0 ≤ node ∧ node < nodes
  capacity : ∀ amount ∈ edges.capacity, 0 ≤ amount

/-- Nothing speaks against the edge list nor against its terminals. -/
structure Accepted (edges : EdgeList) (nodes source sink : Int) : Prop extends Valid edges nodes where
  positive : 0 < nodes
  source : 0 ≤ source ∧ source < nodes
  sink : 0 ≤ sink ∧ sink < nodes

def plan (edges : EdgeList) (nodes : Int) : Plan ArcRow Int where
  places := (List.finRange nodes.toNat).map fun v => (v.val : Int)
  edges := edges.rows
  same u v := decide (u = v)
  tail := ArcRow.tail
  head := ArcRow.head
  fits row amount := 0 ≤ amount ∧ amount ≤ row.capacity
  cost := ArcRow.cost

theorem objection?_eq_none_iff (positive : 0 < nodes) :
    edges.objection? nodes.toNat = none ↔ edges.Valid nodes := by
  have outside (column : List Int) :
      (column.any fun node => node < 0 || ((nodes.toNat : Nat) : Int) ≤ node) = true ↔
        ¬ ∀ node ∈ column, 0 ≤ node ∧ node < nodes := by
    simp only [List.any_eq_true, Bool.or_eq_true, decide_eq_true_eq, not_forall]
    constructor
    · rintro ⟨node, member, beyond⟩
      exact ⟨node, member, by omega⟩
    · rintro ⟨node, member, beyond⟩
      exact ⟨node, member, by omega⟩
  have negative : edges.capacity.any (· < 0) = true ↔ ¬ ∀ amount ∈ edges.capacity, 0 ≤ amount := by
    simp
  unfold objection?
  simp only [outside, negative]
  constructor
  · intro silent
    split_ifs at silent with heads attributes tail head capacity
    exact ⟨not_not.mp heads, by omega, by omega, tail, head, capacity⟩
  · intro valid
    have lengths := valid.capacities
    have costs := valid.costs
    rw [if_neg (not_not.mpr valid.heads), if_neg (by omega), if_neg (not_not.mpr valid.tail),
      if_neg (not_not.mpr valid.head), if_neg (not_not.mpr valid.capacity)]

theorem mem_rows {row : ArcRow} (member : row ∈ edges.rows) :
    row.tail ∈ edges.tail ∧ row.head ∈ edges.head ∧ row.capacity ∈ edges.capacity ∧
      row.cost ∈ edges.cost := by
  obtain ⟨⟨tail, head, capacity, cost⟩, inside, rfl⟩ := List.mem_map.mp member
  have first := List.of_mem_zip inside
  have second := List.of_mem_zip first.2
  have third := List.of_mem_zip second.2
  exact ⟨first.1, second.1, third.1, third.2⟩

theorem Valid.admissible (valid : edges.Valid nodes) :
    ∀ row ∈ edges.rows, row.Admissible nodes.toNat := by
  intro row member
  obtain ⟨tail, head, capacity, _⟩ := mem_rows member
  have first := valid.tail _ tail
  have second := valid.head _ head
  exact ⟨by omega, by omega, valid.capacity _ capacity⟩

/-- What is left to do once the network stands. -/
def answer {n : Nat} (run : Run n) : Except Fault EdgeFlows := do
  let total ← run.outcome
  let flows ← run.network.arcs.mapM fun arc => Word.store arc.flow
  return { flows, total }

/-- An edge list is turned down, or it is a network with its rows for arcs, which is solved. -/
theorem solve_cases (storable : edges.Storable) (nodes source sink : Int) (options : Options) :
    (¬ edges.Accepted nodes source sink ∧ ∃ cause,
      solve nodes (.wholes edges.tail) (.wholes edges.head) (.wholes edges.capacity)
        (.wholes edges.cost) (.whole source) (.whole sink) options = .error (.argument cause)) ∨
    (edges.Accepted nodes source sink ∧ ∃ (net : Network nodes.toNat) (s t : Fin nodes.toNat),
      source = s.val ∧ sink = t.val ∧ net.Fresh ∧ net.arcs.map Arc.row = edges.rows ∧
      solve nodes (.wholes edges.tail) (.wholes edges.head) (.wholes edges.capacity)
        (.wholes edges.cost) (.whole source) (.whole sink) options =
          answer (net.solve s.val t.val options)) := by
  by_cases positive : 0 < nodes
  · have present : ¬ nodes ≤ 0 := by omega
    have columns : read (.wholes edges.tail) (.wholes edges.head) (.wholes edges.capacity)
        (.wholes edges.cost) = .ok edges := by
      rw [read, Value.column_wholes storable.tail, Value.column_wholes storable.head,
        Value.column_wholes storable.capacity, Value.column_wholes storable.cost]
      rfl
    cases objects : edges.objection? nodes.toNat with
    | some cause =>
        refine .inl ⟨fun accepted => ?_, cause, ?_⟩
        · rw [(objection?_eq_none_iff positive).mpr accepted.toValid] at objects
          cases objects
        · rw [solve, if_neg present, columns]
          simp only [bind, Except.bind, objects]
          rfl
    | none =>
        have valid := (objection?_eq_none_iff positive).mp objects
        obtain ⟨arcs, built, rows, empty⟩ :=
          Network.addRows_of_admissible valid.admissible (Network.empty nodes.toNat)
        have searches : solve nodes (.wholes edges.tail) (.wholes edges.head)
            (.wholes edges.capacity) (.wholes edges.cost) (.whole source) (.whole sink) options =
              answer (Network.solve { arcs := arcs } source sink options) := by
          rw [solve, if_neg present, columns]
          simp only [bind, Except.bind, objects, built, Value.wholeNumber]
          rfl
        by_cases inside : (0 ≤ source ∧ source < nodes) ∧ 0 ≤ sink ∧ sink < nodes
        · obtain ⟨s, rfl⟩ := Int.eq_ofNat_of_zero_le inside.1.1
          obtain ⟨t, rfl⟩ := Int.eq_ofNat_of_zero_le inside.2.1
          exact .inr ⟨{ toValid := valid, positive, source := inside.1, sink := inside.2 },
            { arcs := arcs }, ⟨s, by omega⟩, ⟨t, by omega⟩, rfl, rfl, empty, rows, searches⟩
        · refine .inl ⟨fun accepted => inside ⟨accepted.source, accepted.sink⟩, .terminalOutside, ?_⟩
          have beyond : ¬ ((0 ≤ source ∧ source < ((nodes.toNat : Nat) : Int)) ∧
              0 ≤ sink ∧ sink < ((nodes.toNat : Nat) : Int)) := by omega
          rw [searches, Network.solve, dif_neg beyond]
          rfl
  · refine .inl ⟨fun accepted => positive accepted.positive, .emptyEdgeList, ?_⟩
    rw [solve, if_pos (Int.not_lt.mp positive)]
    rfl

theorem answer_eq {n : Nat} (run : Run n) :
    answer run = run.outcome.bind fun total =>
      if ∀ arc ∈ run.network.arcs, Word.Fits arc.flow then
        .ok { flows := run.network.arcs.map Arc.flow, total }
      else .error .tooWide := by
  rw [answer, Word.mapM_store]
  cases run.outcome with
  | error fault => rfl
  | ok total =>
      by_cases fits : ∀ arc ∈ run.network.arcs, Word.Fits arc.flow
      · rw [if_pos fits]
        exact (if_pos fits).symm
      · rw [if_neg fits]
        exact (if_neg fits).symm

theorem answer_ne_argument {n : Nat} {run : Run n}
    (valid : ∀ cause, run.outcome ≠ .error (.argument cause)) (cause : BadArgument) :
    answer run ≠ .error (.argument cause) := by
  rw [answer_eq]
  cases outcome : run.outcome with
  | error fault =>
      intro refused
      cases refused
      exact valid cause outcome
  | ok total =>
      simp only [Except.bind]
      split <;> intro refused <;> cases refused

theorem depicts {net : Network nodes.toNat} (rows : net.arcs.map Arc.row = edges.rows) :
    (edges.plan nodes).Depicts (fun v => (v.val : Int)) net where
  symm same := by simpa [plan, eq_comm] using same
  trans left right := by
    simp only [plan, decide_eq_true_eq] at left right ⊢
    exact left.trans right
  places := rfl
  distinct := by simp [plan, Fin.ext_iff]
  arcs := by
    rw [plan, ← rows, List.forall₂_map_left_iff, List.forall₂_same]
    intro arc _
    exact ⟨decide_eq_true rfl, decide_eq_true rfl, fun _ => Iff.rfl, rfl⟩

theorem fits_of_forall₂ {rows : List ArcRow} {flows : List Int}
    (fits : List.Forall₂ (edges.plan nodes).fits rows flows)
    (capacity : ∀ row ∈ rows, Word.Fits row.capacity) : ∀ flow ∈ flows, Word.Fits flow := by
  induction fits with
  | nil => simp
  | cons first _ ih =>
      obtain ⟨wide, others⟩ := List.forall_mem_cons.mp capacity
      refine List.forall_mem_cons.mpr ⟨?_, ih others⟩
      obtain ⟨lower, upper⟩ := first
      unfold Word.Fits at wide ⊢
      omega

/-- An edge list is turned down for its own sake exactly when it is not accepted. If it is, and no
    cycle of usable rows costs less than nothing, then it is answered with a flow for each row, in
    their order, that is as large and as cheap as the rows and the limit allow. Only the numbers of
    the columns have to fit words. -/
theorem solve_refuses_or_answers (edges : EdgeList) (storable : edges.Storable)
    (nodes source sink : Int) (options : Options)
    (cap : ∀ bound, options.maxFlow = some bound → 0 ≤ bound)
    (allow : options.allowNegativeCosts = true) (unverified : options.verifyConservation = false) :
    ((∃ cause, solve nodes (.wholes edges.tail) (.wholes edges.head) (.wholes edges.capacity)
        (.wholes edges.cost) (.whole source) (.whole sink) options = .error (.argument cause)) ↔
      ¬ edges.Accepted nodes source sink) ∧
    (edges.Accepted nodes source sink → 4 * ((edges.plan nodes).costMagnitude : Int) < horizon →
      ¬ (edges.plan nodes).HasNegativeCycle → ∃ found : EdgeFlows,
        solve nodes (.wholes edges.tail) (.wholes edges.head) (.wholes edges.capacity)
          (.wholes edges.cost) (.whole source) (.whole sink) options = .ok found ∧
        found.flows.length = edges.tail.length ∧
        (edges.plan nodes).Optimal source sink options.maxFlow found.flows found.total) := by
  rcases solve_cases storable nodes source sink options with
    ⟨rejected, cause, refused⟩ | ⟨accepted, net, s, t, rfl, rfl, fresh, rows, solved⟩
  · exact ⟨iff_of_true ⟨cause, refused⟩ rejected, fun accepted => absurd accepted rejected⟩
  · rw [solved]
    refine ⟨iff_of_false ?_ (not_not.mpr accepted), fun _ small acyclic => ?_⟩
    · rintro ⟨cause, refused⟩
      exact answer_ne_argument (net.outcome_ne_argument s t cap allow) cause refused
    · obtain ⟨total, run, optimal⟩ := (depicts rows).exists_answer fresh acyclic small
        (decide_eq_true rfl) (decide_eq_true rfl) cap allow unverified
      have fits := fits_of_forall₂ optimal.ships.fits fun row member =>
        storable.capacity _ (mem_rows member).2.2.1
      rw [answer_eq, run.answered]
      refine ⟨{ flows := _, total }, if_pos (List.forall_mem_map.mp fits), ?_, optimal⟩
      have silent := (objection?_eq_none_iff accepted.positive).mpr accepted.toValid
      exact optimal.ships.fits.length_eq.symm.trans (length_rows silent)

/-- A detour that begins with a row that pays, beside a direct way. -/
def detour : EdgeList where
  tail := [0, 1, 0]
  head := [1, 2, 2]
  capacity := [2, 2, 1]
  cost := [-1, 3, 4]

theorem not_hasNegativeCycle_detour : ¬ (detour.plan 3).HasNegativeCycle := by
  let price (v : Int) : Int := if v = 1 then -1 else if v = 2 then 2 else 0
  have fair : ∀ row ∈ detour.rows, price row.head ≤ row.cost + price row.tail := by decide
  refine Plan.not_hasNegativeCycle price (fun same => ?_) fun row member _ => fair row member
  rw [of_decide_eq_true same]

theorem solve_refuses_or_answers_detour :
    (∃ cause, solve 3 (.wholes [0, 1, 0]) (.wholes [1, 2, 2]) (.wholes [2, 2, 1])
      (.wholes [-1, 3, 4]) (.whole 0) (.whole (-1)) {} = .error (.argument cause)) ∧
    ∃ found : EdgeFlows, solve 3 (.wholes [0, 1, 0]) (.wholes [1, 2, 2]) (.wholes [2, 2, 1])
        (.wholes [-1, 3, 4]) (.whole 0) (.whole 2) {} = .ok found ∧
      found.flows.length = 3 ∧ (detour.plan 3).Optimal 0 2 none found.flows found.total := by
  have storable : detour.Storable := ⟨by decide, by decide, by decide, by decide⟩
  have cap : ∀ bound : Int, ({} : Options).maxFlow = some bound → 0 ≤ bound := by
    intro bound given
    cases given
  constructor
  · refine (solve_refuses_or_answers detour storable 3 0 (-1) {} cap rfl rfl).1.mpr fun accepted => ?_
    have sink := accepted.sink
    omega
  · refine (solve_refuses_or_answers detour storable 3 0 2 {} cap rfl rfl).2 ?_ (by decide)
      not_hasNegativeCycle_detour
    exact ⟨⟨rfl, rfl, rfl, by decide, by decide, by decide⟩, by decide, by decide, by decide⟩

end EdgeList

end MinCostFlow
