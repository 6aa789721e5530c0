import MinCostFlow.Binary64.Decimal

/-! # The shortest decimal text of a number of 64 bits

A number is written with the fewest digits that read back as the same number, and of
two such rows of digits with the nearer one. The text is positional from `0.0001` up to
below `10 ^ 16` and has an exponent of at least two digits elsewhere.
-/

namespace MinCostFlow.Binary64

/-- How many decimal digits stand before the point of a positive quotient; zeros after
    the point count negatively. -/
def pointPlace (num den : Nat) : Int :=
  if den ≤ num then (Nat.toDigits 10 (num / den)).length
  else
    match (List.range 400).find? fun shift => den ≤ num * Nat.pow 10 shift with
    | some shift => 1 - (shift : Int)
    | none => -400

/-- The grid points with `count` digits below and above a quotient that read back as
    `number`, the nearer one first. -/
def readingBack (number : Binary64) (num den : Nat) (place : Int) (count : Nat) : List Nat :=
  let exponent := place - count
  let scaledNum := num * Nat.pow 10 (-exponent).toNat
  let scaledDen := den * Nat.pow 10 exponent.toNat
  let below := scaledNum / scaledDen
  let nearer := roundQuotient scaledNum scaledDen
  let other := if nearer = below then below + 1 else below
  [nearer, other].filter fun digits => ofDecimal false digits exponent = number

/-- The shortest row of digits of a positive finite number, and the power of ten that the
    last of them counts. -/
def shortest (significand : Nat) (exponent : Int) : Nat × Int :=
  let num := significand <<< exponent.toNat
  let den := 1 <<< (-exponent).toNat
  let number := nearest false num den
  let place := pointPlace num den
  let rows := (List.range 17).filterMap fun less =>
    (readingBack number num den place (less + 1)).head?.map fun digits =>
      (digits, place - (less + 1))
  rows.headD (num, 0)

/-- Digits without the zeros at their end, and the power of ten that is then left. -/
def withoutZeros : (budget : Nat) → Nat × Int → Nat × Int
  | 0, row => row
  | budget + 1, (digits, exponent) =>
    if digits % 10 = 0 then withoutZeros budget (digits / 10, exponent + 1)
    else (digits, exponent)

/-- An exponent with a sign and at least two digits. -/
def exponentText (exponent : Int) : String :=
  let digits := toString exponent.natAbs
  "e" ++ (if exponent < 0 then "-" else "+") ++ (if digits.length < 2 then "0" ++ digits else digits)

/-- A row of digits with its point or its exponent. -/
def placed (digits : List Char) (exponent : Int) : String :=
  let place := digits.length + exponent
  let zeros (count : Int) : List Char := List.replicate count.toNat '0'
  if -4 < place ∧ place ≤ 16 then
    if place ≤ 0 then String.ofList ("0.".toList ++ zeros (-place) ++ digits)
    else if 0 ≤ exponent then String.ofList (digits ++ zeros exponent ++ ".0".toList)
    else String.ofList (digits.take place.toNat ++ '.' :: digits.drop place.toNat)
  else
    let head := digits.take 1
    let tail := digits.drop 1
    String.ofList (head ++ if tail.isEmpty then [] else '.' :: tail) ++ exponentText (place - 1)

def text : Binary64 → String
  | .nan _ => "nan"
  | .infinite negative => if negative then "-inf" else "inf"
  | .finite negative significand exponent =>
    let sign := if negative then "-" else ""
    if significand = 0 then sign ++ "0.0"
    else
      let (digits, power) := withoutZeros 17 (shortest significand exponent)
      sign ++ placed (Nat.toDigits 10 digits) power

end MinCostFlow.Binary64
