import MinCostFlow.Fault

/-! # Numbers of 64 bits with a binary exponent

A finite number is a sign, a significand below `2 ^ 53` and a power of two from
`2 ^ -1074` to `2 ^ 971`. It is kept exactly, so that cutting it down to a whole
number loses nothing but its fraction. The reals are rounded to such numbers to
nearest, and of two that are equally near the one with the even significand counts.
-/

namespace MinCostFlow

/-- A number, one of the infinities, or no number at all. What is no number carries a mark,
    for there it counts which one it is. -/
inductive Binary64 where
  | finite (negative : Bool) (significand : Nat) (exponent : Int)
  | infinite (negative : Bool)
  | nan (mark : Nat)
  deriving Repr, DecidableEq

/-- The whole number nearest to a quotient, the even one of two. -/
def roundQuotient (num den : Nat) : Nat :=
  let below := num / den
  let twice := 2 * (num % den)
  if twice < den ∨ twice = den ∧ below % 2 = 0 then below else below + 1

/-- Rounding is off by half a unit at most. -/
theorem roundQuotient_near (num : Nat) {den : Nat} (positive : 0 < den) :
    2 * num ≤ (2 * roundQuotient num den + 1) * den ∧
      2 * roundQuotient num den * den ≤ 2 * num + den := by
  have split := Nat.div_add_mod num den
  have bound := Nat.mod_lt num positive
  unfold roundQuotient
  generalize num / den = below at *
  generalize num % den = rest at *
  subst split
  simp only
  split
  · rename_i down
    constructor <;> grind
  · rename_i up
    constructor <;> grind

namespace Binary64

def leastExponent : Int := -1074

def greatestExponent : Int := 971

def signedZero (negative : Bool) : Binary64 := .finite negative 0 0

/-- A quotient in units of a power of two, as a quotient again. -/
def inUnits (num den : Nat) (exponent : Int) : Nat × Nat :=
  (num <<< (-exponent).toNat, den <<< exponent.toNat)

/-- The exponent of the number nearest to a positive quotient: the one that gives the
    significand 53 binary digits, if it is not too small. -/
def exponentFor (num den : Nat) : Int :=
  let trial : Int := (num.log2 : Int) - den.log2 - 53
  let (scaledNum, scaledDen) := inUnits num den trial
  max leastExponent (if scaledDen <<< 53 ≤ scaledNum then trial + 1 else trial)

/-- The number nearest to a quotient. -/
def nearest (negative : Bool) (num den : Nat) : Binary64 :=
  if num = 0 then
    signedZero negative
  else
    let exponent := exponentFor num den
    let (scaledNum, scaledDen) := inUnits num den exponent
    let significand := roundQuotient scaledNum scaledDen
    let (significand, exponent) :=
      if significand = 1 <<< 53 then (1 <<< 52, exponent + 1) else (significand, exponent)
    if greatestExponent < exponent then .infinite negative
    else .finite negative significand exponent

def ofScaled (significand exponent : Int) : Binary64 :=
  match nearest (significand < 0) significand.natAbs 1 with
  | .finite negative m e =>
    let total := e + exponent
    if 1100 < total then (if m = 0 then signedZero negative else .infinite negative)
    else if total < -1200 then signedZero negative
    else nearest negative (m <<< total.toNat) (1 <<< (-total).toNat)
  | other => other

/-- Is the number below zero? The negative zero is not. -/
def isNegative : Binary64 → Bool
  | .finite negative significand _ => negative && significand != 0
  | .infinite negative => negative
  | .nan _ => false

def truncate : Binary64 → Except Fault Int
  | .finite negative significand exponent =>
    let whole : Nat := significand <<< exponent.toNat >>> (-exponent).toNat
    .ok (if negative then -(whole : Int) else whole)
  | .infinite _ => .error .tooWide
  | .nan _ => .error .unreadable

/-- The significand with its sign. -/
def signed (negative : Bool) (significand : Nat) : Int :=
  if negative then -(significand : Int) else significand

/-- Do two numbers have the same value? The two zeros do. What is no number is only the same
    as itself. -/
def same : Binary64 → Binary64 → Bool
  | .finite negative m e, .finite negative' m' e' =>
    signed negative (m <<< (e - e').toNat) == signed negative' (m' <<< (e' - e).toNat)
  | .infinite negative, .infinite negative' => negative == negative'
  | .nan mark, .nan mark' => mark == mark'
  | _, _ => false

/-- Has a number the value of a whole number? -/
def sameWhole : Binary64 → Int → Bool
  | .finite negative m e, value =>
    signed negative (m <<< e.toNat) == value * ((1 <<< (-e).toNat : Nat) : Int)
  | _, _ => false

end Binary64

end MinCostFlow
