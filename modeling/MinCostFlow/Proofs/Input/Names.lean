import Mathlib.Algebra.Order.Field.Rat
import Mathlib.Algebra.Order.Floor.Defs
import Mathlib.Data.Rat.Floor
import Mathlib.Tactic.FieldSimp
import MinCostFlow.Value

/-! # What values name

Two values are the same when they have one name, and a name forgets how a number was given. All
that is compared otherwise is compared as it stands. So to be the same is an equivalence.
-/

namespace MinCostFlow

/-- What a number of 64 bits amounts to, if it is a number. -/
inductive Magnitude where
  | finite (amount : ℚ)
  | infinite (negative : Bool)
  | none (mark : Nat)
  deriving DecidableEq

/-- What a value is called, whatever kind of number it was given as. -/
inductive Name where
  | nothing
  | number (magnitude : Magnitude)
  | text (value : String)
  | list (entries : List Name)
  | tuple (entries : List Name)

namespace Binary64

def magnitude : Binary64 → Magnitude
  | .finite negative significand exponent =>
    .finite (signed negative significand * 2 ^ exponent)
  | .infinite negative => .infinite negative
  | .nan mark => .none mark

theorem scaled_eq_iff (x y exponent exponent' : Int) :
    x * 2 ^ (exponent - exponent').toNat = y * 2 ^ (exponent' - exponent).toNat ↔
      (x : ℚ) * 2 ^ exponent = y * 2 ^ exponent' := by
  have shift (e e' : Int) : (2 : ℚ) ^ e = 2 ^ (e - e').toNat * 2 ^ min e e' := by
    rw [← zpow_natCast, ← zpow_add₀ two_ne_zero]
    congr 1
    omega
  have unit : (2 : ℚ) ^ min exponent exponent' ≠ 0 := zpow_ne_zero _ two_ne_zero
  rw [shift exponent exponent', shift exponent' exponent, min_comm exponent' exponent,
    ← mul_assoc, ← mul_assoc, mul_left_inj' unit]
  exact_mod_cast Iff.rfl

theorem signed_shiftLeft (negative : Bool) (significand places : Nat) :
    signed negative (significand <<< places) = signed negative significand * 2 ^ places := by
  cases negative <;> simp [signed, Nat.shiftLeft_eq]

theorem same_iff (left right : Binary64) :
    left.same right = true ↔ left.magnitude = right.magnitude := by
  cases left <;> cases right <;> simp [same, magnitude, signed_shiftLeft, scaled_eq_iff]

theorem sameWhole_iff (number : Binary64) (value : Int) :
    number.sameWhole value = true ↔ number.magnitude = .finite value := by
  cases number with
  | finite negative m e =>
      have units := scaled_eq_iff (signed negative m) value e 0
      rw [sub_zero, zero_sub, zpow_zero, mul_one] at units
      simp only [sameWhole, magnitude, signed_shiftLeft, Nat.one_shiftLeft, Nat.cast_pow,
        Nat.cast_ofNat, beq_iff_eq, units, Magnitude.finite.injEq]
  | infinite => simp [sameWhole, magnitude]
  | nan => simp [sameWhole, magnitude]

end Binary64

namespace Value

def magnitude? : Value → Option Magnitude
  | .flag on => some (.finite (flagNumber on))
  | .whole value => some (.finite value)
  | .real number => some number.magnitude
  | _ => none

mutual

def name : Value → Name
  | .nothing => .nothing
  | .flag on => .number (.finite (flagNumber on))
  | .whole value => .number (.finite value)
  | .real number => .number number.magnitude
  | .text value => .text value
  | .list entries => .list (nameOfEach entries)
  | .tuple entries => .tuple (nameOfEach entries)

def nameOfEach : List Value → List Name
  | [] => []
  | value :: rest => name value :: nameOfEach rest

end

mutual

theorem same_iff (left right : Value) : same left right = true ↔ left.name = right.name := by
  cases left <;> cases right <;> simp [same, name, Binary64.sameWhole_iff, Binary64.same_iff]
  case flag.flag on on' => cases on <;> cases on' <;> simp [flagNumber]
  case flag.real => exact eq_comm
  case whole.real => exact eq_comm
  case list.list entries entries' => exact sameAll_iff entries entries'
  case tuple.tuple entries entries' => exact sameAll_iff entries entries'

theorem sameAll_iff (left right : List Value) :
    sameAll left right = true ↔ nameOfEach left = nameOfEach right := by
  cases left with
  | nil => cases right <;> simp [sameAll, nameOfEach]
  | cons first rest =>
      cases right with
      | nil => simp [sameAll, nameOfEach]
      | cons second others =>
        rw [sameAll, Bool.and_eq_true, same_iff first second, sameAll_iff rest others, nameOfEach,
          nameOfEach, List.cons.injEq]

end

theorem same_refl (value : Value) : value.same value := (same_iff value value).mpr rfl

theorem same_symm {left right : Value} (same : left.same right) : right.same left :=
  (same_iff right left).mpr ((same_iff left right).mp same).symm

theorem same_trans {left middle right : Value} (first : left.same middle)
    (second : middle.same right) : left.same right :=
  (same_iff left right).mpr (((same_iff left middle).mp first).trans ((same_iff middle right).mp second))

theorem same_comm (left right : Value) : left.same right = right.same left := by
  rw [Bool.eq_iff_iff]
  exact ⟨same_symm, same_symm⟩

theorem same_congr {left right : Value} (same : left.same right) (other : Value) :
    left.same other = right.same other := by
  rw [Bool.eq_iff_iff]
  exact ⟨same_trans (same_symm same), same_trans same⟩

mutual

theorem isLabel_of_same (left right : Value) (same : left.same right) :
    left.isLabel = right.isLabel := by
  cases left <;> cases right <;> simp_all [Value.same, isLabel]
  case tuple.tuple entries entries' => exact areLabels_of_sameAll entries entries' same

theorem areLabels_of_sameAll (left right : List Value) (same : sameAll left right) :
    areLabels left = areLabels right := by
  cases left with
  | nil => cases right <;> simp_all [sameAll, areLabels]
  | cons first rest =>
      cases right with
      | nil => simp [sameAll] at same
      | cons second others =>
          rw [sameAll, Bool.and_eq_true] at same
          rw [areLabels, areLabels, isLabel_of_same first second same.1,
            areLabels_of_sameAll rest others same.2]

end

end Value

namespace Binary64

theorem floor_scaled (significand : Nat) (exponent : Int) :
    ⌊(significand : ℚ) * 2 ^ exponent⌋ =
      ((significand <<< exponent.toNat >>> (-exponent).toNat : Nat) : Int) := by
  have split : (2 : ℚ) ^ exponent = 2 ^ exponent.toNat / 2 ^ (-exponent).toNat := by
    rw [← zpow_natCast, ← zpow_natCast, ← zpow_sub₀ two_ne_zero]
    congr 1
    omega
  have quotient : (significand : ℚ) * 2 ^ exponent =
      ((significand * 2 ^ exponent.toNat : Nat) : ℚ) / ((2 ^ (-exponent).toNat : Nat) : ℚ) := by
    rw [split]
    push_cast
    ring
  rw [quotient, Nat.shiftLeft_eq, Nat.shiftRight_eq_div_pow]
  exact Rat.floor_natCast_div_natCast _ _

theorem truncate_of_magnitude {number : Binary64} {amount : ℚ}
    (worth : number.magnitude = .finite amount) :
    ∃ cut, number.truncate = .ok cut ∧ (number.isNegative = true ↔ amount < 0) ∧
      (0 ≤ amount → cut = ⌊amount⌋) := by
  cases number with
  | infinite => cases worth
  | nan => cases worth
  | finite negative m e =>
      obtain rfl : (signed negative m : ℚ) * 2 ^ e = amount := by simpa [magnitude] using worth
      have unit : (0 : ℚ) < 2 ^ e := zpow_pos two_pos e
      refine ⟨_, rfl, ?_, fun nonneg => ?_⟩
      · simp only [mul_neg_iff, unit, unit.not_gt, and_false, and_true, false_or, Int.cast_lt_zero]
        cases negative <;> simp [isNegative, signed, Nat.pos_iff_ne_zero]
      · cases negative with
        | false => exact (floor_scaled m e).symm
        | true =>
            have zero : m = 0 := by
              have sign := nonneg_of_mul_nonneg_left nonneg unit
              simpa [signed] using sign
            subst zero
            simp [signed]

end Binary64

namespace Value

/-- A finite number is examined as what it amounts to, unless it is whole and too large. -/
theorem amount?_of_magnitude {value : Value} {amount : ℚ}
    (worth : value.magnitude? = some (.finite amount))
    (small : ∀ number, value = .whole number → number.natAbs < examinable) :
    ∃ found, value.amount? = .ok (some found) ∧ value.wholeNumber = .ok found.whole ∧
      (found.belowZero = true ↔ amount < 0) ∧ (0 ≤ amount → found.whole = ⌊amount⌋) := by
  cases value with
  | flag on =>
      obtain rfl : (flagNumber on : ℚ) = amount := by simpa [magnitude?] using worth
      refine ⟨_, rfl, rfl, ?_, fun _ => (Int.floor_intCast _).symm⟩
      cases on <;> simp [flagNumber]
  | whole number =>
      obtain rfl : (number : ℚ) = amount := by simpa [magnitude?] using worth
      refine ⟨{ belowZero := number < 0, whole := number }, ?_, rfl, by simp,
        fun _ => (Int.floor_intCast _).symm⟩
      rw [amount?, if_neg (Nat.not_le.mpr (small number rfl))]
  | real number =>
      obtain ⟨cut, truncated, sign, floor⟩ := Binary64.truncate_of_magnitude (Option.some.inj worth)
      refine ⟨{ belowZero := number.isNegative, whole := cut }, ?_, truncated, sign, floor⟩
      rw [amount?, truncated]
  | _ => simp [magnitude?] at worth

end Value

end MinCostFlow
