import MinCostFlow.Text.Blank
import MinCostFlow.Text.Digit

/-! # Whole numbers in text

A numeral is an optional sign and a row of decimal digits, in which single
underscores may stand between digits. Blanks may surround it. Rows of more than
4300 digits are not read.
-/

namespace MinCostFlow.Text

def digitLimit : Nat := 4300

/-- The values of the digits of a row that begins with a digit; an underscore has to be
    followed by another digit. -/
def digitRow : List Char → Option (List Nat)
  | [] => none
  | [c] => (digitValue? c).map ([·])
  | c :: '_' :: rest => do
    let value ← digitValue? c
    return value :: (← digitRow rest)
  | c :: next :: rest => do
    let value ← digitValue? c
    return value :: (← digitRow (next :: rest))

def rowValue (digits : List Nat) : Nat :=
  digits.foldl (fun value digit => 10 * value + digit) 0

def magnitude? (chars : List Char) : Option Nat := do
  let digits ← digitRow chars
  if digits.length ≤ digitLimit then some (rowValue digits) else none

def wholeNumber? (text : String) : Option Int :=
  match trimBlanks text.toList with
  | '-' :: digits => (magnitude? digits).map fun value => -(value : Int)
  | '+' :: digits => (magnitude? digits).map fun value => (value : Int)
  | digits => (magnitude? digits).map fun value => (value : Int)

end MinCostFlow.Text
