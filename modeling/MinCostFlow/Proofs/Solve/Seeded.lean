import MinCostFlow.Proofs.Flow.Balance
import MinCostFlow.Proofs.Solve.NegativeCycle

/-! # Seeded prices against zero prices

As long as no closed walk of negative cost is in reach, it makes no difference to the answer of
a solve whether it starts from seeded prices: any two flows that are as large and as cheap as
possible carry as much for as much, and the check after the solve does not tell them apart.

When such a walk is in reach, a solve from zero prices always fails. A seeded one takes its
prices for fair although they are not, stops at the sink, and may answer.
-/

namespace MinCostFlow

open Network Frontier

variable {n : Nat}

/-- Both bad arguments, or both bad states, or the same fault. -/
def Fault.SameKind : Fault → Fault → Prop
  | .argument _, .argument _ => True
  | .state _, .state _ => True
  | left, right => left = right

def SameOutcome : Except Fault FlowCost → Except Fault FlowCost → Prop
  | .ok answer, .ok other => answer = other
  | .error fault, .error other => fault.SameKind other
  | _, _ => False

theorem Fault.SameKind.refl (fault : Fault) : fault.SameKind fault := by
  cases fault <;> trivial

theorem SameOutcome.refl (outcome : Except Fault FlowCost) : SameOutcome outcome outcome := by
  cases outcome with
  | ok answer => exact rfl
  | error fault => exact Fault.SameKind.refl fault

theorem sameOutcome_state_iff {outcome : Except Fault FlowCost} {cause : BadState} :
    SameOutcome outcome (.error (.state cause)) ↔ ∃ other, outcome = .error (.state other) := by
  constructor
  · intro same
    cases outcome with
    | ok answer => exact same.elim
    | error fault =>
        cases fault with
        | state other => exact ⟨other, rfl⟩
        | _ => cases same
  · rintro ⟨other, rfl⟩
    trivial

namespace Network

variable {net : Network n} {source sink : Fin n} {options : Options}

/-- A solve that gets as far as searching, where a closed walk of negative cost is in reach. -/
def Exposed (net : Network n) (source sink : Fin n) (options : Options) : Prop :=
  source ≠ sink ∧ net.objection? options = none ∧
    ∃ u, Reaches net.UsableForward source u ∧ NegativeCycleAt net.UsableForward u

theorem objection?_seeded (net : Network n) (options : Options) (seeded : Bool) :
    net.objection? { options with seedPotentials := seeded } = net.objection? options := rfl

/-- Where nothing of negative cost is in reach, seeding changes no outcome. -/
theorem Fresh.outcome_seeded_eq (fresh : net.Fresh) (source sink : Fin n) (options : Options)
    (small : 2 * (net.liveMagnitude : Int) < horizon) (safe : ¬ net.Exposed source sink options) :
    (net.solve source.val sink.val { options with seedPotentials := true }).outcome =
      (net.solve source.val sink.val { options with seedPotentials := false }).outcome := by
  by_cases apart : source = sink
  · subst apart
    rw [solve_self, solve_self]
  · rw [net.solve_eq apart, net.solve_eq apart]
    rw [objection?_seeded net options true, objection?_seeded net options false]
    cases silent : net.objection? options with
    | some complaint => rfl
    | none =>
        have harmless : Harmless net source :=
          fresh.harmless_iff.mpr fun found => safe ⟨apart, silent, found⟩
        obtain ⟨left, pursued, sound, ended⟩ := fresh.exists_last
          { options with seedPotentials := true } harmless small apart
          fun bound => cap_of_objection?_eq_none silent
        obtain ⟨right, followed, other, finished⟩ := fresh.exists_last
          { options with seedPotentials := false } harmless small apart
          fun bound => cap_of_objection?_eq_none silent
        obtain ⟨flow, cost⟩ := ended.answer_eq finished sound other fresh apart harmless
        have verdict := verifyConservation_eq (sound.same.trans other.same.symm) other.within
          sound.within (fun v => by rw [sound.balance, other.balance, flow]) source.val sink.val right.flow
        dsimp only
        rw [(solveBetween_of_last pursued).2, (solveBetween_of_last followed).2, flow, cost, verdict]

theorem Exposed.solve_fails (exposed : net.Exposed source sink options) (fresh : net.Fresh)
    (small : (net.liveMagnitude : Int) < horizon) :
    (net.solve source.val sink.val { options with seedPotentials := false }).outcome =
        .error (.state .endlessPath) ∧
      (net.solve source.val sink.val { options with seedPotentials := false }).network = net := by
  obtain ⟨apart, silent, found⟩ := exposed
  have unseeded : ({ options with seedPotentials := false } : Options).seedPotentials = false := rfl
  obtain ⟨network, outcome⟩ := solveBetween_of_error
    (fresh.pursue_fails sink small unseeded fun harmless => fresh.harmless_iff.mp harmless found)
  rw [net.solve_eq apart, objection?_seeded, silent]
  exact ⟨outcome, network⟩

/-- Seeding keeps the outcome of a solve, the kind of its fault included, exactly when no search
    is exposed to a closed walk of negative cost, or the seeded solve runs into it as well. It
    then keeps the answer and the very fault in the first case; and in the second the solve from
    zero prices fails with a bad state and has sent nothing. -/
theorem seed_keeps_outcome_iff (net : Network n) (fresh : net.Fresh)
    (small : 4 * (net.costMagnitude : Int) < horizon) (source sink : Fin n) (options : Options) :
    (SameOutcome (net.solve source.val sink.val { options with seedPotentials := true }).outcome
        (net.solve source.val sink.val { options with seedPotentials := false }).outcome ↔
      ¬ net.Exposed source sink options ∨ ∃ cause,
        (net.solve source.val sink.val { options with seedPotentials := true }).outcome =
          .error (.state cause)) ∧
    (¬ net.Exposed source sink options →
      (net.solve source.val sink.val { options with seedPotentials := true }).outcome =
        (net.solve source.val sink.val { options with seedPotentials := false }).outcome) ∧
    (net.Exposed source sink options →
      (net.solve source.val sink.val { options with seedPotentials := false }).outcome =
          .error (.state .endlessPath) ∧
        (net.solve source.val sink.val { options with seedPotentials := false }).network = net) := by
  have live := net.liveMagnitude_le
  have keeps := fresh.outcome_seeded_eq source sink options (by omega)
  refine ⟨?_, keeps, fun exposed => exposed.solve_fails fresh (by omega)⟩
  by_cases exposed : net.Exposed source sink options
  · rw [(exposed.solve_fails fresh (by omega)).1, sameOutcome_state_iff]
    constructor
    · exact .inr
    · intro either
      exact either.resolve_left fun safe => safe exposed
  · rw [keeps exposed]
    exact iff_of_true (SameOutcome.refl _) (.inl exposed)

theorem seed_keeps_outcome_iff_twoWays :
    (twoWays.solve 0 3 { maxFlow := some 1, seedPotentials := true }).outcome =
      (twoWays.solve 0 3 { maxFlow := some 1, seedPotentials := false }).outcome :=
  (seed_keeps_outcome_iff twoWays (by decide) (by decide) 0 3 { maxFlow := some 1 }).2.1
    fun exposed => by
      obtain ⟨u, _, negative⟩ := exposed.2.2
      exact not_hasNegativeCycle_twoWays ⟨u, negative⟩

/-- At a loop that pays the seeded solve answers, and the one from zero prices fails. -/
theorem seed_changes_outcome_payingLoop :
    payingLoop.Fresh ∧ 4 * (payingLoop.costMagnitude : Int) < horizon ∧
      (Reaches payingLoop.UsableForward 0 1 ∧ NegativeCycleAt payingLoop.UsableForward 1) ∧
      ¬ SameOutcome (payingLoop.solve 0 1 { seedPotentials := true }).outcome
        (payingLoop.solve 0 1 { seedPotentials := false }).outcome := by
  have answers : (payingLoop.solve 0 1 { seedPotentials := true }).outcome =
      .ok { flow := 1, cost := 0 } := by
    decide +kernel
  have fails : (payingLoop.solve 0 1 { seedPotentials := false }).outcome =
      .error (.state .endlessPath) := by
    decide +kernel
  refine ⟨by decide, by decide, negativeCycleAt_payingLoop, ?_⟩
  rw [answers, fails]
  exact id

end Network

end MinCostFlow
