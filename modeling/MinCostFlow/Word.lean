import MinCostFlow.Fault

/-! # Signed words of 64 bits

Tables of arcs and balances are kept in words. Storing an integer checks that it
fits; sums of stored words wrap around silently.
-/

namespace MinCostFlow.Word

/-- The number of words, `2 ^ 64`. -/
def span : Nat := 18446744073709551616

/-- An integer fits when it lies in `[-2 ^ 63, 2 ^ 63)`. -/
def Fits (value : Int) : Prop :=
  -9223372036854775808 ≤ value ∧ value < 9223372036854775808

instance (value : Int) : Decidable (Fits value) := inferInstanceAs (Decidable (_ ∧ _))

/-- Does an integer fill all 64 bits of a word and leave none for the sign? -/
def TakesSignBit (value : Int) : Prop :=
  9223372036854775808 ≤ value ∧ value < 18446744073709551616

instance takesSignBitDecidable (value : Int) : Decidable (TakesSignBit value) :=
  inferInstanceAs (Decidable (_ ∧ _))

def store (value : Int) : Except Fault Int :=
  if Fits value then .ok value else .error .tooWide

/-- The word that an exact sum leaves behind: the one representative modulo
    `2 ^ 64` that fits. -/
def wrap (value : Int) : Int := value.bmod span

theorem wrap_eq_self {value : Int} (fits : Fits value) : wrap value = value := by
  unfold Fits at fits
  exact Int.bmod_eq_of_le (by simp only [span]; omega) (by simp only [span]; omega)

theorem wrap_add_wrap (left right : Int) : wrap (wrap left + right) = wrap (left + right) := by
  simp [wrap, Int.bmod_add_bmod]

end MinCostFlow.Word
