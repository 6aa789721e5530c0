import MinCostFlow.Proofs.Relaxation.Detection
import MinCostFlow.Sample.Networks

/-! # The cycle that is found costs less than nothing

A node keeps the tail of the arc that moved it last. When the arc moved it, the two distances
differed by what the arc costs, and since then the distance of the tail can only have fallen. So an
arc that moved a node last never costs more than the distances differ by. The move that closes a
cycle of such arcs goes further: just before it, its arc cost less than the distances differed by.
Take these distances as prices. Around the cycle the arcs then cost less than nothing, and prices do
not matter around a cycle.

Going back from node to node comes to the same node again only after all others on the cycle, since
just one arc moved each of them last.
-/

namespace MinCostFlow

open Network

variable {n : Nat} {net : Network n}

namespace Network

/-- A row of nodes around a cycle. It ends where it begins, the other nodes are pairwise distinct,
    and from each node to the next an open arc can be chosen so that together they cost less than
    nothing. -/
structure NegativeRound (net : Network n) (nodes : List (Fin n)) : Prop where
  closed : nodes.head? = nodes.getLast?
  distinct : nodes.dropLast.Nodup
  chosen : ∃ faces, (∀ face ∈ faces, net.UsableForward face) ∧
    faces.map Residual.tail = nodes.dropLast ∧ faces.map Residual.head = nodes.tail ∧
    walkCost faces < 0

end Network

namespace Relaxation

variable {state : Relaxation n} {arc : Arc n} {mover : Fin n → Option (Residual n)}

/-- For each node that was moved, the face by which it was moved last. -/
structure Movers (net : Network n) (mover : Fin n → Option (Residual n)) (state : Relaxation n) :
    Prop where
  usable : ∀ v face, mover v = some face → net.UsableForward face ∧ face.head = v
  via : ∀ v, state.via.entry v = (mover v).map Residual.tail
  slack : ∀ v face, mover v = some face →
    state.dist.entry face.tail + face.cost ≤ state.dist.entry v
  negative : ∀ u faces, Walk (fun face => mover face.head = some face) u faces u → faces ≠ [] →
    walkCost faces < 0

namespace Movers

theorem unique {left right : Residual n} (first : mover left.head = some left)
    (second : mover right.head = some right) (heads : left.head = right.head) : left = right := by
  rw [heads, second] at first
  exact (Option.some.inj first).symm

/-- A closed row of movers that the last move has closed costs less than nothing. -/
theorem walkCost_neg (movers : Movers net mover state) (improves : state.Improves arc)
    {last : Residual n} (tail : last.tail = arc.tail) (head : last.head = arc.head)
    (cost : last.cost = arc.cost) {u : Fin n} {faces : List (Residual n)}
    (walk : Walk (fun face => Function.update mover arc.head (some last) face.head = some face)
      u faces u) (through : last ∈ faces) : walkCost faces < 0 := by
  let before : Potential := Array.ofFn state.dist.entry
  have closing : last.reducedCost before < 0 := by
    have cheaper := improves.2
    rw [Residual.reducedCost, price_ofFn, price_ofFn, tail, head, cost]
    omega
  have nonpos : ∀ face ∈ faces, face.reducedCost before ≤ 0 := by
    intro face member
    have moved := walk.allowed_of_mem member
    by_cases here : face.head = arc.head
    · rw [here, Function.update_self] at moved
      rw [← Option.some.inj moved]
      exact Int.le_of_lt closing
    · rw [Function.update_of_ne here] at moved
      have slack := movers.slack _ face moved
      rw [Residual.reducedCost, price_ofFn, price_ofFn]
      omega
  calc
    walkCost faces = reducedWalkCost before faces := (walk.reducedWalkCost_closed before).symm
    _ < (faces.map fun _ => (0 : Int)).sum := List.sum_lt_sum _ _ nonpos ⟨last, through, closing⟩
    _ = 0 := by simp

theorem move (movers : Movers net mover state) (member : arc ∈ net.openArcs)
    (improves : state.Improves arc) : ∃ mover, Movers net mover (state.move arc) := by
  obtain ⟨last, usable, tail, head, cost⟩ := exists_face member
  have falls := dist_move_le improves
  refine ⟨Function.update mover arc.head (some last), ?_, ?_, ?_, ?_⟩
  · intro v face moved
    by_cases here : v = arc.head
    · rw [here, Function.update_self] at moved
      obtain rfl := Option.some.inj moved
      exact ⟨usable, head.trans here.symm⟩
    · rw [Function.update_of_ne here] at moved
      exact movers.usable v face moved
  · intro v
    by_cases here : v = arc.head
    · rw [here, Function.update_self, Option.map_some, tail]
      exact PerNode.entry_put_self _ _ _
    · rw [Function.update_of_ne here, ← movers.via v]
      exact PerNode.entry_put_of_ne _ (Ne.symm here) _
  · intro v face moved
    have fallen := falls face.tail
    by_cases here : v = arc.head
    · rw [here, Function.update_self] at moved
      obtain rfl := Option.some.inj moved
      rw [tail] at fallen
      rw [here, dist_move_self, tail, cost]
      omega
    · rw [Function.update_of_ne here] at moved
      have slack := movers.slack v face moved
      rw [dist_move_of_ne here]
      omega
  · intro u faces walk nonempty
    by_cases through : last ∈ faces
    · exact movers.walkCost_neg improves tail head cost walk through
    · have old : ∀ face ∈ faces, mover face.head = some face := by
        intro face inside
        have moved := walk.allowed_of_mem inside
        by_cases here : face.head = arc.head
        · rw [here, Function.update_self] at moved
          exact absurd (Option.some.inj moved ▸ inside) through
        · rwa [Function.update_of_ne here] at moved
      exact movers.negative u faces (walk.of_mem old) nonempty

end Movers

theorem movers_everywhere : Movers net (fun _ => none) (everywhere n) where
  usable _ _ moved := by cases moved
  via v := PerNode.entry_all _ v
  slack _ _ moved := by cases moved
  negative u faces walk nonempty := by
    cases walk with
    | nil => exact absurd rfl nonempty
    | cons moved _ => cases moved

theorem exists_movers (net : Network n) : ∃ mover, Movers net mover net.settled := by
  have keeps : ∀ last : Relaxation n, (∃ mover, Movers net mover last) →
      ∃ mover, Movers net mover (last.round net.openArcs) := by
    rintro last ⟨mover, movers⟩
    refine foldl_improve net.openArcs { last with moved := none }
      (motive := fun _ last => ∃ mover, Movers net mover last) ?_ ?_ ⟨mover, { movers with }⟩
    · rintro last arc _ member ⟨mover, movers⟩ improves
      exact movers.move member improves
    · exact fun _ _ _ holds _ => holds
  have rest := rounds_rest net.openArcs (everywhere n)
    (motive := fun _ last => ∃ mover, Movers net mover last) (fun _ last holds _ => keeps last holds)
    ⟨_, movers_everywhere⟩ n
  change Rest _ _ n net.settled at rest
  generalize net.settled = last at rest
  cases rest with
  | quiet holds _ => exact keeps _ holds
  | full holds => exact holds

/-- What closes a piece of a cycle is a row of movers that comes from the last node and does not
    come back to it. -/
theorem Movers.front_of_closeCycle (movers : Movers net mover state) {last : Fin n} {budget : Nat}
    {v : Fin n} {piece cycle : List (Fin n)}
    (closed : state.closeCycle last budget v piece = some cycle) :
    ∃ front face, mover v = some face ∧
      Walk (fun face => mover face.head = some face ∧ face.head ≠ last) last front face.tail ∧
      cycle = visits last front ++ piece := by
  induction budget generalizing v piece with
  | zero => cases closed
  | succ budget ih =>
      rw [closeCycle] at closed
      obtain ⟨u, via, closed⟩ := Option.bind_eq_some_iff.mp closed
      rw [movers.via] at via
      obtain ⟨face, moved, rfl⟩ := Option.map_eq_some_iff.mp via
      split at closed
      · rename_i back
        rw [← back]
        exact ⟨[], face, moved, .nil _, (Option.some.inj closed).symm⟩
      · rename_i away
        obtain ⟨front, before, moved', walk, rfl⟩ := ih closed
        have head := (movers.usable _ before moved').2
        refine ⟨front ++ [before], face, moved, ?_, ?_⟩
        · rw [← head]
          exact walk.snoc rfl ⟨head.symm ▸ moved', head.symm ▸ away⟩
        · rw [visits_append, List.map_singleton, head, List.append_assoc]
          rfl

theorem Movers.negativeRound (movers : Movers net mover state) {last : Fin n} {budget : Nat}
    {cycle : List (Fin n)} (closed : state.closeCycle last budget last [last] = some cycle) :
    net.NegativeRound cycle := by
  obtain ⟨front, face, moved, walk, rfl⟩ := movers.front_of_closeCycle closed
  obtain ⟨_, head⟩ := movers.usable last face moved
  have nodes : visits last front ++ [last] = visits last (front ++ [face]) := by
    rw [visits_append, List.map_singleton, head]
  have around : Walk (fun face => mover face.head = some face) last (front ++ [face]) last := by
    have walk := (walk.mono fun _ fits => fits.1).snoc rfl (head.symm ▸ moved)
    rwa [head] at walk
  refine ⟨?_, ?_, front ++ [face], ?_, ?_, ?_, ?_⟩
  · rw [nodes, around.getLast?_visits]
    rfl
  · rw [List.dropLast_concat]
    exact Walk.nodup_of_single (fun _ _ first second => unique first.1 second.1)
      (fun _ fits => fits.2) walk
  · exact fun face inside => (movers.usable _ face (around.allowed_of_mem inside)).1
  · rw [nodes]
    exact around.map_tail_eq
  · rw [nodes]
    rfl
  · exact movers.negative last _ around (by simp)

end Relaxation

namespace Network

open Relaxation

/-- The check for a cycle does not fail: each step back over the arcs that moved the nodes finds one
    more of them, and the steps come to the node that closes the cycle. It answers with nothing
    exactly when no closed walk of open arcs costs less than nothing, and else with the nodes of one. -/
theorem findNegativeCycle_finds (net : Network n) :
    ∃ answer, net.findNegativeCycle = .ok answer ∧
      (answer = none ↔ ¬ net.HasNegativeCycle) ∧
      (net.hasNegativeCycle = false ↔ ¬ net.HasNegativeCycle) ∧
      ∀ nodes, answer = some nodes → net.NegativeRound nodes := by
  obtain ⟨mover, movers⟩ := exists_movers net
  have detects : net.hasNegativeCycle = false ↔ ¬ net.HasNegativeCycle := by
    rw [hasNegativeCycle, Option.isSome_eq_false_iff, Option.isNone_iff_eq_none]
    exact ⟨not_hasNegativeCycle, moved_eq_none⟩
  rcases net.findNegativeCycle_cases with ⟨harmless, nothing⟩ | ⟨cyclic, nodes, found⟩
  · exact ⟨none, nothing, iff_of_true rfl harmless, detects, fun _ given => by cases given⟩
  · refine ⟨some nodes, found, iff_of_false (by simp) (not_not_intro cyclic), detects, ?_⟩
    rintro _ ⟨⟩
    rw [findNegativeCycle] at found
    cases moved : net.settled.moved with
    | none => simp [moved] at found
    | some v =>
        cases closed : net.settled.cycleBefore v with
        | none => simp [moved, closed] at found
        | some cycle =>
            simp only [moved, closed, Except.ok.injEq, Option.some.injEq] at found
            obtain ⟨last, _, closed⟩ := Option.bind_eq_some_iff.mp closed
            exact found ▸ movers.negativeRound closed

/-- The loop goes around itself. -/
example : payingLoop.findNegativeCycle = .ok (some [1, 1]) := by decide

end Network

end MinCostFlow
