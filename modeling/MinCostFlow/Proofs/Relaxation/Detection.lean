import Mathlib.Data.Fintype.Pigeonhole
import Mathlib.Tactic.WLOG
import MinCostFlow.Network.NegativeCycle
import MinCostFlow.Proofs.Relaxation.Rounds
import MinCostFlow.Proofs.Walk.Cost

/-! # Cycles that cost less than nothing are found

With every node at zero at the outset, round `n` moves something exactly when some closed
walk over open arcs costs less than nothing: without one, walks that visit no node twice are
the cheapest, and these the rounds before have dealt with; and distances that no arc undercuts
are fair prices.

A node that round `r` moved was moved from a node that round `r - 1` or a later one had moved.
So from a node moved by round `n` there are `n` steps back, among `n + 1` nodes two are the
same, and the last of them lies on a cycle of the steps.
-/

namespace MinCostFlow

open Network

variable {n : Nat} {net : Network n}

namespace Relaxation

variable {state : Relaxation n} {arc : Arc n}

theorem dist_everywhere (v : Fin n) : (everywhere n).dist.entry v = 0 := PerNode.entry_all 0 v

theorem plain_everywhere : Plain (everywhere n) := fun v => .inl (dist_everywhere v)

/-- The node of each arc's tail keeps the number of the round that moved it last. -/
structure Stamped (net : Network n) (round : Nat) (pending : List (Arc n)) (stamp : Fin n → Nat)
    (state : Relaxation n) : Prop where
  near : ∀ v, state.dist.entry v < horizon
  bound : ∀ v, stamp v ≤ round
  via : ∀ v, 0 < stamp v → ∃ u, state.via.entry v = some u ∧ stamp v ≤ stamp u + 1
  moved : ∀ v, state.moved = some v → stamp v = round
  late : ∀ arc ∈ net.openArcs,
    state.dist.entry arc.head ≤ state.dist.entry arc.tail + arc.cost ∨ round ≤ stamp arc.tail + 1
  done : ∀ arc ∈ net.openArcs, arc ∉ pending →
    state.dist.entry arc.head ≤ state.dist.entry arc.tail + arc.cost ∨ round ≤ stamp arc.tail

namespace Stamped

variable {round : Nat} {rest : List (Arc n)} {stamp : Fin n → Nat}

theorem kept (improves : state.Improves arc) {other : Arc n} (away : other.tail ≠ arc.head)
    (held : state.dist.entry other.head ≤ state.dist.entry other.tail + other.cost) :
    (state.move arc).dist.entry other.head ≤ (state.move arc).dist.entry other.tail + other.cost := by
  rw [dist_move_of_ne away]
  by_cases here : other.head = arc.head
  · have cheaper := improves.2
    rw [here] at held ⊢
    rw [dist_move_self]
    omega
  · rwa [dist_move_of_ne here]

theorem move (stamped : Stamped net round (arc :: rest) stamp state) (member : arc ∈ net.openArcs)
    (improves : state.Improves arc) :
    Stamped net round rest (Function.update stamp arc.head round) (state.move arc) := by
  have cheaper := improves.2
  have grows : ∀ v, stamp v ≤ Function.update stamp arc.head round v := by
    intro v
    by_cases here : v = arc.head
    · rw [here, Function.update_self]
      exact stamped.bound _
    · rw [Function.update_of_ne here]
  have recent : round ≤ stamp arc.tail + 1 := by
    cases stamped.late arc member with
    | inl tight => omega
    | inr recent => exact recent
  refine ⟨fun v => ?_, fun v => ?_, fun v positive => ?_, fun v moved => ?_,
    fun other inside => ?_, fun other inside processed => ?_⟩
  · by_cases here : v = arc.head
    · have near := stamped.near arc.head
      rw [here, dist_move_self]
      omega
    · rw [dist_move_of_ne here]
      exact stamped.near v
  · by_cases here : v = arc.head
    · rw [here, Function.update_self]
    · rw [Function.update_of_ne here]
      exact stamped.bound v
  · by_cases here : v = arc.head
    · refine ⟨arc.tail, ?_, ?_⟩
      · rw [here]
        exact PerNode.entry_put_self _ _ _
      · have grown := grows arc.tail
        rw [here, Function.update_self]
        omega
    · rw [Function.update_of_ne here] at positive ⊢
      obtain ⟨u, via, later⟩ := stamped.via v positive
      refine ⟨u, (PerNode.entry_put_of_ne _ (Ne.symm here) _).trans via, ?_⟩
      have grown := grows u
      omega
  · obtain rfl : arc.head = v := by simpa [Relaxation.move] using moved
    exact Function.update_self _ _ _
  · by_cases here : other.tail = arc.head
    · rw [here, Function.update_self]
      exact .inr (Nat.le_succ round)
    · rw [Function.update_of_ne here]
      exact (stamped.late other inside).imp_left (kept improves here)
  · by_cases here : other.tail = arc.head
    · rw [here, Function.update_self]
      exact .inr (Nat.le_refl round)
    · by_cases same : other = arc
      · subst same
        rw [dist_move_self, dist_move_of_ne here]
        exact .inl (Int.le_refl _)
      · rw [Function.update_of_ne here]
        refine (stamped.done other inside fun pending => ?_).imp_left (kept improves here)
        exact (List.mem_cons.mp pending).elim same processed

theorem skip (stamped : Stamped net round (arc :: rest) stamp state)
    (fails : ¬ state.Improves arc) : Stamped net round rest stamp state := by
  refine { stamped with done := fun other inside processed => ?_ }
  by_cases same : other = arc
  · subst same
    refine .inl (Int.not_lt.mp fun cheaper => fails ⟨?_, cheaper⟩)
    exact Int.ne_of_lt (stamped.near other.tail)
  · apply stamped.done other inside
    intro pending
    exact (List.mem_cons.mp pending).elim same processed

theorem next_round (stamped : Stamped net round [] stamp state) :
    ∃ stamp, Stamped net (round + 1) [] stamp (state.round net.openArcs) := by
  refine foldl_improve net.openArcs { state with moved := none }
    (motive := fun pending last => ∃ stamp, Stamped net (round + 1) pending stamp last) ?_ ?_
    ⟨stamp, ?_⟩
  · rintro last arc rest member ⟨stamp, stamped⟩ improves
    exact ⟨_, stamped.move member improves⟩
  · rintro last arc rest ⟨stamp, stamped⟩ fails
    exact ⟨stamp, stamped.skip fails⟩
  · refine ⟨stamped.near, fun v => ?_, stamped.via, by simp, fun arc member => ?_, ?_⟩
    · have bound := stamped.bound v
      omega
    · exact (stamped.done arc member List.not_mem_nil).imp_right Nat.succ_le_succ
    · intro arc member processed
      exact absurd member processed

end Stamped

theorem stamped_everywhere : Stamped net 0 [] (fun _ => 0) (everywhere n) where
  near v := by
    rw [dist_everywhere]
    decide
  bound _ := Nat.le_refl 0
  via v positive := absurd positive (Nat.lt_irrefl 0)
  moved _ moved := by simp [everywhere] at moved
  late _ _ := .inr (Nat.zero_le _)
  done _ _ _ := .inr (Nat.zero_le _)

theorem exists_stamped {v : Fin n} (moved : net.settled.moved = some v) :
    ∃ stamp, Stamped net n [] stamp net.settled := by
  have rest := rounds_rest net.openArcs (everywhere n)
    (motive := fun k last => ∃ stamp, Stamped net k [] stamp last)
    (fun k prev holds _ => by
      obtain ⟨stamp, stamped⟩ := holds
      exact stamped.next_round)
    ⟨_, stamped_everywhere⟩ n
  change Rest _ _ n net.settled at rest
  generalize net.settled = last at rest moved
  cases rest with
  | quiet _ quiet =>
      rw [quiet] at moved
      simp at moved
  | full stamped => exact stamped

theorem Stamped.back {round : Nat} {stamp : Fin n → Nat} (stamped : Stamped net round [] stamp state)
    (steps : Nat) (v : Fin n) (enough : steps ≤ stamp v) : ∃ u, state.back steps v = some u := by
  induction steps generalizing v with
  | zero => exact ⟨v, rfl⟩
  | succ steps ih =>
      obtain ⟨u, via, later⟩ := stamped.via v (by omega)
      obtain ⟨w, back⟩ := ih u (by omega)
      exact ⟨w, by rw [Relaxation.back, via, Option.bind_some, back]⟩

theorem back_add (state : Relaxation n) (first second : Nat) (v : Fin n) :
    state.back (first + second) v = (state.back first v).bind (state.back second) := by
  induction first generalizing v with
  | zero => simp [back]
  | succ first ih =>
      rw [Nat.succ_add_eq_add_succ, Nat.add_succ, back, back, Option.bind_assoc]
      congr 1
      funext u
      exact ih u

/-- The node `n` steps back lies on a cycle of steps back. -/
theorem exists_cycle_of_back {v last : Fin n} (found : state.back n v = some last) :
    ∃ k < n, state.back (k + 1) last = some last := by
  have prior : ∀ i : Fin (n + 1), ∃ u, state.back i v = some u := by
    intro i
    cases there : state.back i v with
    | some u => exact ⟨u, rfl⟩
    | none =>
        have whole := back_add state i (n - i) v
        rw [there, show i.val + (n - i.val) = n by omega, found] at whole
        simp at whole
  choose node reached using prior
  obtain ⟨i, j, apart, same⟩ : ∃ i j, i ≠ j ∧ node i = node j := by
    apply Fintype.exists_ne_map_eq_of_card_lt node
    simp
  wlog order : i < j generalizing i j
  · exact this j i apart.symm same.symm (lt_of_le_of_ne (not_lt.mp order) apart.symm)
  have around : state.back (j - i) (node j) = some (node j) := by
    have whole := back_add state i (j - i) v
    rw [show i.val + (j.val - i.val) = j.val by omega, reached, reached, Option.bind_some, same] at whole
    exact whole.symm
  have onward : state.back (n - j) (node j) = some last := by
    have whole := back_add state j (n - j) v
    rw [show j.val + (n - j.val) = n by omega, found, reached, Option.bind_some] at whole
    exact whole.symm
  refine ⟨j - i - 1, by omega, ?_⟩
  have left := back_add state (n - j) (j - i) (node j)
  have right := back_add state (j - i) (n - j) (node j)
  rw [onward, Option.bind_some] at left
  rw [around, Option.bind_some, onward, Nat.add_comm] at right
  rw [show (j.val - i.val - 1) + 1 = j.val - i.val by omega, ← left, right]

theorem exists_closeCycle {last : Fin n} (k budget : Nat) (v : Fin n) (piece : List (Fin n))
    (around : state.back (k + 1) v = some last) (enough : k < budget) :
    ∃ cycle, state.closeCycle last budget v piece = some cycle := by
  induction k generalizing budget v piece with
  | zero =>
      obtain ⟨budget, rfl⟩ : ∃ less, budget = less + 1 := ⟨budget - 1, by omega⟩
      obtain ⟨u, via, same⟩ := Option.bind_eq_some_iff.mp around
      obtain rfl : u = last := Option.some.inj same
      exact ⟨_, by rw [closeCycle, via, Option.bind_some, if_pos rfl]⟩
  | succ k ih =>
      obtain ⟨budget, rfl⟩ : ∃ less, budget = less + 1 := ⟨budget - 1, by omega⟩
      obtain ⟨u, via, back⟩ := Option.bind_eq_some_iff.mp around
      by_cases closed : u = last
      · exact ⟨_, by rw [closeCycle, via, Option.bind_some, if_pos closed]⟩
      · obtain ⟨cycle, found⟩ := ih budget u (u :: piece) back (by omega)
        exact ⟨cycle, by rw [closeCycle, via, Option.bind_some, if_neg closed, found]⟩

end Relaxation

namespace Network

open Relaxation

theorem settled_everywhere (net : Network n) : Settled net (everywhere n) n net.settled :=
  settled_rounds plain_everywhere rfl n

theorem near_everywhere {u v : Fin n} {faces : List (Residual n)}
    (walk : Walk net.UsableForward u faces v) : Near net (everywhere n) u faces v :=
  ⟨dist_everywhere u, walk, fun _ _ x _ _ => .inl (dist_everywhere x)⟩

/-- Without a cycle of negative cost round `n` moves nothing. -/
theorem moved_eq_none (harmless : ¬ net.HasNegativeCycle) : net.settled.moved = none := by
  have settled := net.settled_everywhere
  generalize net.settled = last at settled
  cases settled with
  | tight _ _ quiet => exact quiet
  | covered grounded _ _ fell =>
      cases moved : last.moved with
      | none => rfl
      | some v =>
          obtain ⟨k, prev, count, covers, lower⟩ := fell v moved
          have near : last.dist.entry v < horizon := by
            have fallen := grounded.lower v
            rw [dist_everywhere] at fallen
            exact Int.lt_of_le_of_lt fallen (by decide)
          obtain ⟨u, faces, _, walk, cost⟩ := grounded.attained v near
          obtain ⟨short, walk, simple, cheaper⟩ := walk.exists_simple
          have few := length_lt_of_nodup simple
          have known := covers u short v (near_everywhere walk) (by omega)
          have least := cheaper fun x _ negative => harmless ⟨x, negative⟩
          omega

theorem not_hasNegativeCycle (quiet : net.settled.moved = none) : ¬ net.HasNegativeCycle := by
  rintro ⟨u, negative⟩
  have settled := net.settled_everywhere
  generalize net.settled = last at settled quiet
  cases settled with
  | covered _ _ none_left _ =>
      have empty := none_left quiet
      exact absurd u.isLt (by omega)
  | tight grounded tight _ =>
      refine not_negativeCycleAt (Array.ofFn last.dist.entry) ?_ negative
      intro face usable _
      obtain ⟨arc, member, tail, head, cost⟩ := exists_arc usable
      have fallen := grounded.lower arc.tail
      rw [dist_everywhere] at fallen
      have step := tight arc member (Int.lt_of_le_of_lt fallen (by decide))
      rw [Residual.reducedCost, price_ofFn, price_ofFn, ← tail, ← head, ← cost]
      omega

/-- A cycle of negative cost is found exactly when there is one. -/
theorem findNegativeCycle_cases (net : Network n) :
    (¬ net.HasNegativeCycle ∧ net.findNegativeCycle = .ok none) ∨
      net.HasNegativeCycle ∧ ∃ cycle, net.findNegativeCycle = .ok (some cycle) := by
  rw [findNegativeCycle]
  cases moved : net.settled.moved with
  | none => exact .inl ⟨not_hasNegativeCycle moved, rfl⟩
  | some v =>
      refine .inr ⟨?_, ?_⟩
      · by_contra harmless
        rw [moved_eq_none harmless] at moved
        simp at moved
      · obtain ⟨stamp, stamped⟩ := exists_stamped moved
        obtain ⟨last, back⟩ := stamped.back n v (Nat.le_of_eq (stamped.moved v moved).symm)
        obtain ⟨k, bound, around⟩ := exists_cycle_of_back back
        obtain ⟨cycle, closed⟩ := exists_closeCycle k n last [last] around bound
        exact ⟨cycle, by simp only [cycleBefore, back, Option.bind_some, closed]⟩

end Network

end MinCostFlow
