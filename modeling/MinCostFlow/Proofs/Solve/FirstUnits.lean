import MinCostFlow.Proofs.Solve.Ledger

/-! # The first units of a row of augmentations

The units that augmentations send stand in a row, each with the price of its path. To take the first
of them is to take whole augmentations as long as they fit, and then a part of one more.
-/

namespace MinCostFlow

/-- The augmentations that send the first units, the last of them cut short. -/
def firstUnits : Int → List Augmentation → List Augmentation
  | _, [] => []
  | bound, sent :: rest =>
    if bound ≤ 0 then []
    else if sent.units ≤ bound then sent :: firstUnits (bound - sent.units) rest
    else [{ sent with units := bound }]

def unitPrices (augmentations : List Augmentation) : List Int :=
  augmentations.flatMap fun sent => List.replicate sent.units.toNat sent.unitCost

/-- Of the augmentations of a whole, those before the bound is met, and of the one that meets it as
    much as is still missing. -/
inductive CutAt (bound : Int) (whole : List Augmentation) : List Augmentation → Prop where
  | none : bound = 0 → CutAt bound whole []
  | all : unitsOf whole < bound → CutAt bound whole whole
  | amid {count : Nat} {last : Augmentation} :
    whole[count]? = some last → (∀ fewer ≤ count, unitsOf (whole.take fewer) < bound) →
    bound ≤ unitsOf (whole.take (count + 1)) →
    CutAt bound whole (whole.take count ++ [{ last with units := bound - unitsOf (whole.take count) }])

variable {sent : Augmentation} {rest whole : List Augmentation} {bound : Int}

theorem unitPrices_cons (sent : Augmentation) (rest : List Augmentation) :
    unitPrices (sent :: rest) = List.replicate sent.units.toNat sent.unitCost ++ unitPrices rest := rfl

theorem firstUnits_of_nonpos (none : bound ≤ 0) (whole : List Augmentation) :
    firstUnits bound whole = [] := by
  cases whole with
  | nil => rfl
  | cons sent rest => exact if_pos none

theorem firstUnits_cons_of_le (some : 0 < bound) (fits : sent.units ≤ bound) :
    firstUnits bound (sent :: rest) = sent :: firstUnits (bound - sent.units) rest :=
  (if_neg (Int.not_le.mpr some)).trans (if_pos fits)

theorem firstUnits_cons_of_lt (some : 0 < bound) (cut : bound < sent.units) :
    firstUnits bound (sent :: rest) = [{ sent with units := bound }] :=
  (if_neg (Int.not_le.mpr some)).trans (if_neg (Int.not_le.mpr cut))

theorem CutAt.of_units_eq {count : Nat} {last : Augmentation} {units : Int}
    (found : whole[count]? = some last) (before : ∀ fewer ≤ count, unitsOf (whole.take fewer) < bound)
    (met : bound ≤ unitsOf (whole.take (count + 1))) (missing : units = bound - unitsOf (whole.take count)) :
    CutAt bound whole (whole.take count ++ [{ last with units }]) :=
  missing ▸ .amid found before met

theorem CutAt.first (some : 0 < bound) (met : bound ≤ sent.units) :
    CutAt bound (sent :: rest) [{ sent with units := bound }] := by
  apply @CutAt.of_units_eq (sent :: rest) bound 0 sent bound rfl
  · intro fewer least
    rw [Nat.le_zero.mp least]
    exact some
  · simpa using met
  · simp

theorem CutAt.cons {cut : List Augmentation} (positive : 0 < sent.units) (fits : sent.units ≤ bound)
    (later : CutAt (bound - sent.units) rest cut) : CutAt bound (sent :: rest) (sent :: cut) := by
  cases later with
  | none same =>
      obtain rfl : bound = sent.units := by omega
      exact .first positive (Int.le_refl _)
  | all less =>
      apply CutAt.all
      rw [unitsOf_cons]
      omega
  | @amid count last found before met =>
      apply @CutAt.of_units_eq (sent :: rest) bound (count + 1) last
      · exact found
      · intro fewer least
        cases fewer with
        | zero => exact Int.lt_of_lt_of_le positive fits
        | succ fewer =>
            have less := before fewer (Nat.le_of_succ_le_succ least)
            rw [List.take_succ_cons, unitsOf_cons]
            omega
      · rw [List.take_succ_cons, unitsOf_cons]
        omega
      · rw [List.take_succ_cons, unitsOf_cons]
        omega

theorem cutAt_firstUnits (positive : ∀ sent ∈ whole, 0 < sent.units) (nonneg : 0 ≤ bound) :
    CutAt bound whole (firstUnits bound whole) := by
  induction whole generalizing bound with
  | nil =>
      cases Int.lt_or_eq_of_le nonneg with
      | inl some => exact .all some
      | inr zero => exact .none zero.symm
  | cons sent rest ih =>
      obtain ⟨first, others⟩ := List.forall_mem_cons.mp positive
      cases Int.lt_or_eq_of_le nonneg with
      | inr zero =>
          rw [firstUnits_of_nonpos (Int.le_of_eq zero.symm)]
          exact .none zero.symm
      | inl some =>
          by_cases fits : sent.units ≤ bound
          · rw [firstUnits_cons_of_le some fits]
            exact .cons first fits (ih others (Int.sub_nonneg_of_le fits))
          · have cut := Int.not_le.mp fits
            rw [firstUnits_cons_of_lt some cut]
            exact .first some (Int.le_of_lt cut)

/-- Three units of two and four. -/
example : firstUnits 3 [⟨[], 2, 1⟩, ⟨[], 4, 5⟩] = [⟨[], 2, 1⟩, ⟨[], 1, 5⟩] := by decide

theorem sum_take_of_le {less more : Nat} (le : less ≤ more) (amounts : List Int) :
    (amounts.take more).sum = (amounts.take less).sum + ((amounts.take more).drop less).sum := by
  rw [← List.sum_take_add_sum_drop (amounts.take more) less, List.take_take, min_eq_left le]

/-- The first units cost what the first prices add up to. -/
theorem costOf_firstUnits (positive : ∀ sent ∈ whole, 0 < sent.units) (nonneg : 0 ≤ bound) :
    costOf (firstUnits bound whole) = ((unitPrices whole).take bound.toNat).sum := by
  induction whole generalizing bound with
  | nil => simp [firstUnits, unitPrices]
  | cons sent rest ih =>
      obtain ⟨first, others⟩ := List.forall_mem_cons.mp positive
      rw [unitPrices_cons, List.take_append, List.length_replicate, List.sum_append, List.take_replicate,
        List.sum_replicate_int]
      cases Int.lt_or_eq_of_le nonneg with
      | inr zero =>
          subst zero
          simp [firstUnits_of_nonpos]
      | inl some =>
          by_cases fits : sent.units ≤ bound
          · have units : ((min bound.toNat sent.units.toNat : Nat) : Int) = sent.units := by omega
            have remains : bound.toNat - sent.units.toNat = (bound - sent.units).toNat := by omega
            rw [firstUnits_cons_of_le some fits, costOf_cons, ih others (Int.sub_nonneg_of_le fits),
              units, remains]
          · have units : ((min bound.toNat sent.units.toNat : Nat) : Int) = bound := by omega
            have remains : bound.toNat - sent.units.toNat = 0 := by omega
            rw [firstUnits_cons_of_lt some (Int.not_le.mp fits), units, remains]
            simp

end MinCostFlow
