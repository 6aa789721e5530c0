import MinCostFlow.Fault

/-! # Positions counted from either end

A sequence of `count` slots can be addressed from the front by `0 … count - 1` and
from the back by `-1 … -count`. Every other integer is out of range.
-/

namespace MinCostFlow.Position

/-- The slot of a number from the front. -/
def front {count : Nat} {position : Int} (inside : 0 ≤ position ∧ position < count) : Fin count :=
  ⟨position.toNat, by omega⟩

/-- The slot that an integer names among `count` slots. -/
def slot? (count : Nat) (position : Int) : Option (Fin count) :=
  if inside : 0 ≤ position ∧ position < count then
    some (front inside)
  else if back : -count ≤ position ∧ position < 0 then
    some ⟨(count + position).toNat, by omega⟩
  else
    none

/-- The slot that an integer names, or the fault that it names none. -/
def slot (count : Nat) (position : Int) : Except Fault (Fin count) :=
  match slot? count position with
  | some found => .ok found
  | none => .error .outOfRange

def entry {α : Type} (column : Array α) (position : Int) : Except Fault α := do
  let found ← slot column.size position
  return column[found]

@[simp] theorem slot_natCast {count : Nat} (found : Fin count) :
    slot count (found.val : Int) = .ok found := by
  have inside : (0 : Int) ≤ found.val ∧ (found.val : Int) < count :=
    ⟨by omega, by exact_mod_cast found.isLt⟩
  simp [slot, slot?, front, inside]

/-- A position has no slot exactly when it is beyond both ends. -/
theorem slot_eq_error_iff {count : Nat} {position : Int} {fault : Fault} :
    slot count position = .error fault ↔
      (position < -count ∨ (count : Int) ≤ position) ∧ fault = .outOfRange := by
  unfold slot slot?
  split <;> rename_i found
  · split at found
    · simp; omega
    · split at found
      · simp; omega
      · simp at found
  · split at found
    · simp at found
    · split at found
      · simp at found
      · constructor
        · intro same
          injection same with same
          exact ⟨by omega, same.symm⟩
        · rintro ⟨_, rfl⟩
          rfl

@[simp] theorem entry_natCast {α : Type} {column : Array α} {k : Nat} (bound : k < column.size) :
    entry column (k : Int) = .ok column[k] := by
  have found := slot_natCast (⟨k, bound⟩ : Fin column.size)
  simp only [entry]
  rw [show ((k : Nat) : Int) = ((⟨k, bound⟩ : Fin column.size).val : Int) from rfl, found]
  rfl

end MinCostFlow.Position
