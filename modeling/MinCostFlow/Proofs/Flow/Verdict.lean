import Mathlib.Data.Fin.Tuple.Basic
import Mathlib.Data.Int.ModEq
import MinCostFlow.Proofs.Flow.Balance

/-! # What the check of balances tells apart

A word is an integer up to a multiple of `2 ^ 64`, and so are the balances that the check compares.
Units that go missing in such multiples escape it. Where the arcs at a node carry too little for
that, its balance is a word itself, and there the check is exact.
-/

namespace MinCostFlow

variable {n : Nat}

namespace Word

theorem wrap_eq_iff_modEq {value word : Int} (fits : Fits word) :
    wrap value = word ↔ value ≡ word [ZMOD span] := by
  constructor
  · rintro rfl
    exact (Int.bmod_emod (x := value) (m := span)).symm
  · intro congruent
    calc wrap value
      _ = (value % span).bmod span := (Int.emod_bmod value span).symm
      _ = (word % span).bmod span := by rw [congruent]
      _ = wrap word := Int.emod_bmod word span
      _ = word := wrap_eq_self fits

theorem modEq_iff_eq {left right : Int} (fits : Fits left) (fitting : Fits right) :
    left ≡ right [ZMOD span] ↔ left = right := by
  rw [← wrap_eq_iff_modEq fitting, wrap_eq_self fits]

theorem fits_of_natAbs_lt {value : Int} (small : value.natAbs < 9223372036854775808) :
    Fits value := by
  unfold Fits
  omega

end Word

namespace Network

variable {net : Network n} {source sink : Fin n} {amount : Int}

/-- What the arcs at a node carry in all, signs left aside. A loop is one arc. -/
def traffic (net : Network n) (v : Fin n) : Nat :=
  ((net.arcs.filter fun arc => arc.tail = v ∨ arc.head = v).map fun arc => arc.flow.natAbs).sum

theorem natAbs_exactBalance_le_traffic (net : Network n) (v : Fin n) :
    (net.exactBalance v).natAbs ≤ net.traffic v := by
  have bound := List.le_sum_of_subadditive Int.natAbs Int.natAbs_zero.le Int.natAbs_add_le
    (net.arcs.map fun arc => arc.credit v)
  rw [List.map_map] at bound
  rw [exactBalance_eq_sum, traffic, sum_map_filter]
  refine Nat.le_trans bound (List.sum_le_sum fun arc _ => ?_)
  simp only [Function.comp_apply, Arc.credit]
  grind

/-- The balance of a node is the demanded one, up to a multiple of `2 ^ 64`. -/
def Tallies (net : Network n) (source sink : Fin n) (amount : Int) (v : Fin n) : Prop :=
  net.exactBalance v ≡ demand source sink amount v [ZMOD Word.span]

instance talliesDecidable (net : Network n) (source sink : Fin n) (amount : Int) (v : Fin n) :
    Decidable (net.Tallies source sink amount v) :=
  inferInstanceAs (Decidable (_ ≡ _ [ZMOD _]))

theorem tallies_of_eq {v : Fin n} (exact : net.exactBalance v = demand source sink amount v) :
    net.Tallies source sink amount v := by
  rw [Tallies, exact]

theorem fits_demand (receipt : Word.Fits amount) (supply : Word.Fits (-amount)) (v : Fin n) :
    Word.Fits (demand source sink amount v) := by
  unfold demand
  split
  · exact receipt
  · split
    · exact supply
    · decide

/-- Where the arcs at a node carry too little to lose a multiple of `2 ^ 64`, its balance tallies
    only if it is the demanded one. -/
theorem tallies_iff_of_traffic_lt (receipt : Word.Fits amount) (supply : Word.Fits (-amount))
    {v : Fin n} (calm : net.traffic v < 9223372036854775808) :
    net.Tallies source sink amount v ↔ net.exactBalance v = demand source sink amount v := by
  have bound := net.natAbs_exactBalance_le_traffic v
  exact Word.modEq_iff_eq (Word.fits_of_natAbs_lt (by omega)) (fits_demand receipt supply v)

/-- The check accepts a flow whose balances all tally, and of any other it reports the first node
    whose balance does not. -/
theorem Storable.verifyConservation_cases (storable : net.Storable) (receipt : Word.Fits amount)
    (supply : Word.Fits (-amount)) (source sink : Fin n) :
    ((∀ v, net.Tallies source sink amount v) ∧
        net.verifyConservation source.val sink.val amount = ([], .ok ())) ∨
      ∃ v, ¬ net.Tallies source sink amount v ∧ (∀ w < v, net.Tallies source sink amount w) ∧
        net.verifyConservation source.val sink.val amount =
          ([.unbalanced v (Word.wrap (net.exactBalance v)) (demand source sink amount v)],
            .error (.state (.unbalanced v))) := by
  have tallies (v : Fin n) : Word.wrap (net.exactBalance v) = demand source sink amount v ↔
      net.Tallies source sink amount v :=
    Word.wrap_eq_iff_modEq (fits_demand receipt supply v)
  rcases net.imbalance?_cases source sink amount with ⟨_, found⟩ | ⟨wide, _⟩
  · simp only [tallies, ← Fin.findSome?_eq_findSome?_finRange] at found
    rw [verifyConservation, found]
    cases complaint : Fin.findSome? _ with
    | none =>
        left
        simp only [Fin.findSome?_eq_none_iff, ite_eq_left_iff, reduceCtorEq, imp_false,
          not_not] at complaint
        exact ⟨complaint, rfl⟩
    | some imbalance =>
        right
        obtain ⟨v, off, first⟩ := Fin.findSome?_eq_some_iff.mp complaint
        simp only [ite_eq_left_iff, reduceCtorEq, imp_false, not_not] at first
        split at off
        · cases off
        · rename_i differs
          cases off
          exact ⟨v, differs, first, rfl⟩
  · exact absurd ⟨storable, receipt, supply⟩ wide

end Network

end MinCostFlow
