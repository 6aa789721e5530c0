import MinCostFlow.Proofs.History.Slots
import MinCostFlow.Proofs.Solve.Ledger

/-! # What a reset leaves of a history

An operation either appends an arc that carries nothing, or changes nothing but what the arcs
carry, or changes nothing at all. A reset drops what the arcs carry. So what remains of a history
is the row of arcs that it was granted, whatever was pushed, solved or refused in between.
-/

namespace MinCostFlow

variable {n : Nat}

/-- An arc that can be granted: its ends are nodes, and it may hold something or nothing. -/
def ArcRow.Admissible (n : Nat) (row : ArcRow) : Prop :=
  (0 ≤ row.tail ∧ row.tail < n) ∧ (0 ≤ row.head ∧ row.head < n) ∧ 0 ≤ row.capacity

theorem Arc.eq_of_row {left right : Arc n} (same : left.row = right.row) (empty : left.flow = 0)
    (empty' : right.flow = 0) : left = right := by
  obtain ⟨tail, head, capacity, cost, flow⟩ := left
  obtain ⟨tail', head', capacity', cost', flow'⟩ := right
  simp only [Arc.row, ArcRow.mk.injEq, Int.natCast_inj] at same
  obtain ⟨tails, heads, capacities, costs⟩ := same
  exact Arc.mk.injEq .. ▸ ⟨Fin.ext tails, Fin.ext heads, capacities, costs, empty.trans empty'.symm⟩

namespace Network

variable {net : Network n}

theorem node_cases (n : Nat) (name : Int) :
    (∃ v : Fin n, name = v.val ∧ node n name = .ok v) ∨
      (¬ (0 ≤ name ∧ name < n) ∧ node n name = .error (.argument (.nodeOutside name n))) := by
  by_cases inside : 0 ≤ name ∧ name < n
  · refine .inl ⟨Position.front inside, ?_, dif_pos inside⟩
    simp only [Position.front]
    omega
  · exact .inr ⟨inside, dif_neg inside⟩

theorem addArc_cases (net : Network n) (row : ArcRow) :
    (∃ arc : Arc n, arc.row = row ∧ arc.flow = 0 ∧
      net.addArc row.tail row.head row.capacity row.cost =
        .ok ({ arcs := net.arcs ++ [arc] },
          { tail := arc.tail.val, index := (net.out arc.tail).length })) ∨
    (¬ row.Admissible n ∧ ∃ cause,
      net.addArc row.tail row.head row.capacity row.cost = .error (.argument cause)) := by
  obtain ⟨tail, head, capacity, cost⟩ := row
  simp only [addArc]
  rcases node_cases n tail with ⟨u, rfl, first⟩ | ⟨outside, first⟩
  · rcases node_cases n head with ⟨v, rfl, second⟩ | ⟨outside, second⟩
    · rw [first, second]
      by_cases negative : capacity < 0
      · refine .inr ⟨fun admissible => ?_, .negativeCapacity, ?_⟩
        · exact Int.not_lt.mpr admissible.2.2 negative
        · simp only [bind, Except.bind, if_pos negative]
          rfl
      · refine .inl ⟨{ tail := u, head := v, capacity := capacity.toNat, cost }, ?_, rfl, ?_⟩
        · simp only [Arc.row, ArcRow.mk.injEq, true_and, and_true]
          omega
        · simp only [bind, Except.bind, if_neg negative]
          rfl
    · rw [first, second]
      exact .inr ⟨fun admissible => outside admissible.2.1, _, rfl⟩
  · rw [first]
    exact .inr ⟨fun admissible => outside admissible.1, _, rfl⟩

theorem addRows_of_admissible {rows : List ArcRow} (admissible : ∀ row ∈ rows, row.Admissible n)
    (net : Network n) :
    ∃ arcs : List (Arc n), net.addRows rows = .ok { arcs := net.arcs ++ arcs } ∧
      arcs.map Arc.row = rows ∧ ∀ arc ∈ arcs, arc.flow = 0 := by
  induction rows generalizing net with
  | nil => exact ⟨[], by rw [List.append_nil]; rfl, rfl, by simp⟩
  | cons row rest ih =>
      obtain ⟨first, others⟩ := List.forall_mem_cons.mp admissible
      rcases net.addArc_cases row with ⟨arc, asked, empty, granted⟩ | ⟨refused, _⟩
      · obtain ⟨arcs, added, rows, carry⟩ := ih others { arcs := net.arcs ++ [arc] }
        refine ⟨arc :: arcs, ?_, by rw [List.map_cons, asked, rows], List.forall_mem_cons.mpr ⟨empty, carry⟩⟩
        rw [List.append_assoc, List.singleton_append] at added
        rw [addRows, List.foldlM_cons, granted]
        exact added
      · exact absurd first refused

theorem freePlace_natCast (net : Network n) (u : Fin n) : net.freePlace u.val = (net.out u).length := by
  rw [freePlace, outOf, Position.slot_natCast]
  rfl

/-- All that an operation can do to the arcs of a network. -/
theorem apply_cases (net : Network n) (operation : Operation) :
    (∃ arc : Arc n, operation = .addArc arc.row ∧ arc.flow = 0 ∧
      net.apply operation = { arcs := net.arcs ++ [arc] } ∧
      net.admission? operation = some
        { row := arc.row
          id := { tail := arc.tail.val, index := (net.out arc.tail).length }
          twin :=
            { tail := arc.head.val
              index := (net.out arc.head).length + if arc.tail = arc.head then 1 else 0 } }) ∨
    SameArcs (net.apply operation) net ∧ net.admission? operation = none := by
  cases operation with
  | addArc row =>
      rcases net.addArc_cases row with ⟨arc, rfl, empty, granted⟩ | ⟨_, cause, refused⟩
      · refine .inl ⟨arc, rfl, empty, ?_, ?_⟩
        · rw [apply, granted]
        · rw [admission?, granted]
          simp only [Arc.row, freePlace_natCast, Int.natCast_inj, Fin.val_inj]
      · right
        rw [apply, admission?, refused]
        exact ⟨rfl, rfl⟩
  | push id amount =>
      refine .inr ⟨?_, rfl⟩
      rw [apply]
      cases pushed : net.push id amount with
      | error fault => exact rfl
      | ok next =>
          obtain ⟨_, face, _, _, rfl⟩ := push_eq_ok_iff.mp pushed
          exact sameArcs_pushAlong net face amount
  | reset => exact .inr ⟨reset_reset net, rfl⟩
  | solve source sink options => exact .inr ⟨net.sameArcs_solve source sink options, rfl⟩

theorem replay_cons (net : Network n) (operation : Operation) (rest : History) :
    net.replay (operation :: rest) = (net.apply operation).replay rest := rfl

theorem replay_append (net : Network n) (front rest : History) :
    net.replay (front ++ rest) = (net.replay front).replay rest :=
  List.foldl_append

theorem addArc_reset {arc : Arc n} (empty : arc.flow = 0) (net : Network n) :
    ∃ id, net.reset.addArc arc.row.tail arc.row.head arc.row.capacity arc.row.cost =
      .ok (({ arcs := net.arcs ++ [arc] } : Network n).reset, id) := by
  rcases net.reset.addArc_cases arc.row with ⟨again, asked, carried, granted⟩ | ⟨refused, _⟩
  · obtain rfl := Arc.eq_of_row asked carried empty
    have still : again.drained = again := by
      obtain ⟨tail, head, capacity, cost, flow⟩ := again
      cases carried
      rfl
    rw [granted, reset_append, still]
    exact ⟨_, rfl⟩
  · exfalso
    apply refused
    simp only [ArcRow.Admissible, Arc.row]
    omega

/-- The arcs that a history was granted, asked for once more in the same order, are all granted,
    and make up what a reset leaves of the history. -/
theorem addRows_admissions (net : Network n) (history : History) :
    net.reset.addRows ((net.admissions history).map Admission.row) = .ok (net.replay history).reset := by
  induction history generalizing net with
  | nil => rfl
  | cons operation rest ih =>
      rw [replay_cons, ← ih, admissions]
      rcases net.apply_cases operation with ⟨arc, _, empty, applied, admitted⟩ | ⟨same, none⟩
      · obtain ⟨id, granted⟩ := addArc_reset empty net
        rw [admitted, applied, Option.toList_some, List.map_append, List.map_singleton,
          List.singleton_append, addRows, List.foldlM_cons, granted]
        rfl
      · rw [none, same, Option.toList_none, List.nil_append]

/-- After a reset the network is the one that the granted additions alone would have built. So a
    solve that follows goes as it would on that network, to the last detail. -/
theorem reset_erases_history (n : Nat) (history : History) :
    ∃ rebuilt, (empty n).addRows (((empty n).admissions history).map Admission.row) = .ok rebuilt ∧
      (empty n).replay (history ++ [.reset]) = rebuilt ∧
      ∀ source sink options,
        ((empty n).replay (history ++ [.reset])).solve source sink options =
          rebuilt.solve source sink options := by
  have erased : (empty n).replay (history ++ [.reset]) = ((empty n).replay history).reset :=
    replay_append _ _ _
  refine ⟨((empty n).replay history).reset, ?_, erased, fun source sink options => ?_⟩
  · rw [← addRows_admissions, reset_empty]
  · rw [erased]

end Network

end MinCostFlow
