import MinCostFlow.Binary64

/-! # Decimal text as a number of 64 bits

A text is a sign, digits with a point among them, and a power of ten; or it is the
word for an infinity or for what is no number. The power of ten is applied exactly
and the result is rounded once.
-/

namespace MinCostFlow.Binary64

/-- The number nearest to `digits * 10 ^ exponent`. What is far beyond the range on either
    side is not computed. -/
def ofDecimal (negative : Bool) (digits : Nat) (exponent : Int) : Binary64 :=
  let size : Int := (Nat.toDigits 10 digits).length + exponent
  if digits = 0 ∨ size < -400 then signedZero negative
  else if 400 < size then .infinite negative
  else nearest negative (digits * Nat.pow 10 exponent.toNat) (Nat.pow 10 (-exponent).toNat)

def digitsValue? (chars : List Char) : Option Nat :=
  if chars.all Char.isDigit then
    some (chars.foldl (fun value c => 10 * value + (c.toNat - 48)) 0)
  else
    none

def exponent? : List Char → Option Int
  | [] => none
  | '-' :: digits => if digits.isEmpty then none else (digitsValue? digits).map fun e => -(e : Int)
  | '+' :: digits => if digits.isEmpty then none else (digitsValue? digits).map fun e => (e : Int)
  | digits => (digitsValue? digits).map fun e => (e : Int)

def unsigned? (negative : Bool) (chars : List Char) : Option Binary64 :=
  if chars = "nan".toList then some (.nan 0)
  else if chars = "inf".toList then some (.infinite negative)
  else
    let isMark (c : Char) : Bool := c = 'e' || c = 'E'
    let mantissa := chars.takeWhile fun c => !isMark c
    let whole := mantissa.takeWhile (· ≠ '.')
    let fraction := (mantissa.dropWhile (· ≠ '.')).drop 1
    let power : Option Int :=
      match chars.dropWhile fun c => !isMark c with
      | [] => some 0
      | _ :: rest => exponent? rest
    if whole.isEmpty && fraction.isEmpty then none
    else do
      let digits ← digitsValue? (whole ++ fraction)
      return ofDecimal negative digits ((← power) - fraction.length)

/-- The number that a decimal text stands for. No text tells one of what is no number from
    another, so all of these have the mark zero. -/
def ofText? (text : String) : Option Binary64 :=
  match text.toList with
  | '-' :: rest => unsigned? true rest
  | '+' :: rest => unsigned? false rest
  | rest => unsigned? false rest

end MinCostFlow.Binary64
