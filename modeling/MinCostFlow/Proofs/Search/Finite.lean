import MinCostFlow.Proofs.Search.Drained
import MinCostFlow.Proofs.Search.Route

/-! # Every search comes to an end, and fails only for a reason

A search takes entries from its queue until one of three things happens, and nothing in its rules
limits how many it takes. Around a closed walk of negative cost distances fall and fall, and nodes
join the queue again and again; what ends this is the count of faces that each label carries along.
For whatever the costs and the prices are, a label stands for a row of fewer than `n` faces, and so
distances do not fall forever.

The count may be out of date, since labels nearer to the source have improved since it was taken.
But it only grows to `n` where some closed walk of negative cost is in reach.
-/

namespace MinCostFlow

open Network

variable {n : Nat}

namespace Frontier

variable {net : Network n} {potential : Potential} {goal : Option Int} {source : Fin n}
  {frontier : Frontier n} {ending : Except Fault (Frontier n × Bool)}

/-- From a frontier a search takes so many entries, and then it ends in this way. -/
inductive Drains (net : Network n) (potential : Potential) (goal : Option Int) :
    Nat → Frontier n → Except Fault (Frontier n × Bool) → Prop where
  /-- No entry is left. -/
  | drained {frontier : Frontier n} : frontier.queue = [] →
    Drains net potential goal 0 frontier (.ok (frontier, false))
  /-- The entry is the goal. -/
  | stopped {frontier : Frontier n} {entry : Entry n} {rest : Queue n} :
    frontier.queue = entry :: rest → frontier.dist entry.node = entry.dist →
    goal = some entry.name → Drains net potential goal 1 frontier (.ok (frontier, true))
  /-- Looking at the node of the entry fails. -/
  | failed {frontier : Frontier n} {entry : Entry n} {rest : Queue n} {fault : Fault} :
    frontier.queue = entry :: rest → frontier.dist entry.node = entry.dist →
    goal ≠ some entry.name →
    settle net potential entry { frontier with queue := rest } = .error fault →
    Drains net potential goal 1 frontier (.error fault)
  /-- A later label has overtaken the entry. -/
  | skipped {frontier : Frontier n} {entry : Entry n} {rest : Queue n} {turns : Nat}
    {ending : Except Fault (Frontier n × Bool)} :
    frontier.queue = entry :: rest → frontier.dist entry.node ≠ entry.dist →
    Drains net potential goal turns { frontier with queue := rest } ending →
    Drains net potential goal (turns + 1) frontier ending
  /-- The node of the entry is looked at. -/
  | settled {frontier next : Frontier n} {entry : Entry n} {rest : Queue n} {turns : Nat}
    {ending : Except Fault (Frontier n × Bool)} :
    frontier.queue = entry :: rest → frontier.dist entry.node = entry.dist →
    goal ≠ some entry.name →
    settle net potential entry { frontier with queue := rest } = .ok next →
    Drains net potential goal turns next ending →
    Drains net potential goal (turns + 1) frontier ending

/-- A search whose budget of entries is enough goes as one without a budget. -/
theorem drains_of_drain {budget : Nat} (ran : drain net potential goal budget frontier = ending)
    (enough : ending ≠ .error .endless) :
    ∃ turns ≤ budget, Drains net potential goal turns frontier ending := by
  induction budget generalizing frontier with
  | zero =>
      unfold drain at ran
      split at ran
      · rename_i empty
        exact ⟨0, Nat.le_refl 0, ran ▸ .drained empty⟩
      · exact absurd ran.symm enough
  | succ budget ih =>
      unfold drain at ran
      split at ran
      · rename_i empty
        exact ⟨0, Nat.zero_le _, ran ▸ .drained empty⟩
      · rename_i entry rest queue
        dsimp only at ran
        split at ran
        · rename_i overtaken
          obtain ⟨turns, bound, drains⟩ := ih ran
          exact ⟨turns + 1, Nat.succ_le_succ bound, .skipped queue overtaken drains⟩
        · rename_i current
          have current : frontier.dist entry.node = entry.dist := Decidable.not_not.mp current
          split at ran
          · rename_i first
            exact ⟨1, Nat.succ_le_succ (Nat.zero_le _), ran ▸ .stopped queue current first⟩
          · rename_i other
            cases settled : settle net potential entry { frontier with queue := rest } with
            | error fault =>
                rw [settled] at ran
                exact ⟨1, Nat.succ_le_succ (Nat.zero_le _), ran ▸ .failed queue current other settled⟩
            | ok next =>
                rw [settled] at ran
                obtain ⟨turns, bound, drains⟩ := ih ran
                exact ⟨turns + 1, Nat.succ_le_succ bound, .settled queue current other settled drains⟩

theorem eq_endlessPath_of_drain {fault : Fault} (size : potential.size = n)
    (failed : drain net potential goal (net.searchBudget potential) (start source source.val) =
      .error fault) : fault = .state .endlessPath := by
  have ending := drain_tidy net goal source (motive := fun _ => True)
    size trivial (fun _ _ _ _ _ _ _ => trivial) fun _ _ _ _ _ _ _ _ _ => trivial
  rw [failed] at ending
  cases ending with
  | failed holds queue _ failed =>
      exact eq_endlessPath_of_settle size (holds.1.named _ (by rw [queue]; exact List.mem_cons_self))
        failed

end Frontier

namespace Network

open Frontier

/-- A search takes no more entries than its budget allows, whatever the costs, the prices and the
    rooms are. It answers, or fails because a way has grown too long, and then a closed walk of
    negative cost is in reach of the source. -/
theorem search_ends (net : Network n) (potential : Potential) (size : potential.size = n)
    (source sink : Fin n) (stopAtSink : Bool) :
    ∃ turns ending, turns ≤ net.searchBudget potential ∧
      Drains net potential (if stopAtSink then some (sink.val : Int) else none) turns
        (start source source.val) ending ∧
      net.search source.val sink.val potential stopAtSink =
        ending.map (fun last => reachOf sink last.2 last.1) ∧
      ∀ fault, ending = .error fault → fault = .state .endlessPath ∧
        ∃ u, Reaches net.Usable source u ∧ NegativeCycleAt net.Usable u := by
  have searched := net.search_eq potential source sink stopAtSink
  have fails {fault : Fault} := @eq_endlessPath_of_drain n net potential
    (if stopAtSink then some (sink.val : Int) else none) source fault size
  have answers (harmless : Harmless net source) := drain_finished size harmless
    (if stopAtSink then some (sink.val : Int) else none)
  generalize ran : drain net potential (if stopAtSink then some (sink.val : Int) else none)
    (net.searchBudget potential) (start source source.val) = ending at searched fails answers
  obtain ⟨turns, bound, drains⟩ := drains_of_drain ran (by
    rintro rfl
    cases fails rfl)
  refine ⟨turns, ending, bound, drains, searched, ?_⟩
  rintro fault rfl
  refine ⟨fails rfl, not_harmless_iff.mp fun harmless => ?_⟩
  obtain ⟨_, _, _, answered, _⟩ := answers harmless
  cases answered

theorem search_ends_payingLoop :
    payingLoop.search 0 1 #[0, 7] false = .error (.state .endlessPath) ∧
      ∃ u, Reaches payingLoop.Usable 0 u ∧ NegativeCycleAt payingLoop.Usable u := by
  have ran : payingLoop.search 0 1 #[0, 7] false = .error (.state .endlessPath) := by
    decide +kernel
  obtain ⟨_, ending, _, _, searched, reason⟩ := search_ends payingLoop #[0, 7] rfl 0 1 false
  cases ending with
  | ok last =>
      have answered : payingLoop.search 0 1 #[0, 7] false = .ok (reachOf 1 last.2 last.1) := searched
      rw [ran] at answered
      cases answered
  | error fault => exact ⟨ran, (reason fault rfl).2⟩

end Network

end MinCostFlow
