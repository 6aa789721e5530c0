import MinCostFlow.Binary64.Shortest
import MinCostFlow.Text.Numeral
import MinCostFlow.Text.Quoted

/-! # Values of callers

Labels, attributes, and the entries of columns come as values of several kinds. Here
stands when two of them are the same label, how they are written, and what number each
of them is.
-/

namespace MinCostFlow

/-- A value as a caller gives it. -/
inductive Value where
  | nothing
  | flag (on : Bool)
  | whole (value : Int)
  | real (value : Binary64)
  | text (value : String)
  | list (entries : List Value)
  | tuple (entries : List Value)
  deriving Repr

/-- A finite number: whether it is below zero, and what is left of it without its
    fraction. -/
structure Amount where
  belowZero : Bool
  whole : Int
  deriving Repr, DecidableEq

namespace Value

def flagNumber (on : Bool) : Int := if on then 1 else 0

mutual

/-- Do two values name the same thing? Numbers do by value, whatever their kind. -/
def same : Value → Value → Bool
  | .nothing, .nothing => true
  | .flag on, .flag on' => on == on'
  | .flag on, .whole value => flagNumber on == value
  | .flag on, .real number => number.sameWhole (flagNumber on)
  | .whole value, .flag on => value == flagNumber on
  | .whole value, .whole value' => value == value'
  | .whole value, .real number => number.sameWhole value
  | .real number, .flag on => number.sameWhole (flagNumber on)
  | .real number, .whole value => number.sameWhole value
  | .real number, .real number' => number.same number'
  | .text value, .text value' => value == value'
  | .list entries, .list entries' => sameAll entries entries'
  | .tuple entries, .tuple entries' => sameAll entries entries'
  | _, _ => false

def sameAll : List Value → List Value → Bool
  | [], [] => true
  | value :: rest, value' :: rest' => same value value' && sameAll rest rest'
  | _, _ => false

end

mutual

/-- Can the value be a label? Lists cannot, nor tuples that hold some. -/
def isLabel : Value → Bool
  | .list _ => false
  | .tuple entries => areLabels entries
  | _ => true

def areLabels : List Value → Bool
  | [] => true
  | value :: rest => isLabel value && areLabels rest

end

mutual

def written : Value → String
  | .nothing => "None"
  | .flag on => if on then "True" else "False"
  | .whole value => toString value
  | .real number => number.text
  | .text value => Text.quoted value
  | .list entries => "[" ++ ", ".intercalate (writtenEach entries) ++ "]"
  | .tuple [entry] => "(" ++ written entry ++ ",)"
  | .tuple entries => "(" ++ ", ".intercalate (writtenEach entries) ++ ")"

def writtenEach : List Value → List String
  | [] => []
  | value :: rest => written value :: writtenEach rest

end

/-- The whole number that a value is cut down to. -/
def wholeNumber : Value → Except Fault Int
  | .flag on => .ok (flagNumber on)
  | .whole value => .ok value
  | .real number => number.truncate
  | .text value =>
    match Text.wholeNumber? value with
    | some number => .ok number
    | none => .error .unreadable
  | _ => .error .wrongKind

/-- From here on whole numbers are too large to be examined as numbers of 64 bits. -/
def examinable : Nat := (1 <<< 1024) - (1 <<< 970)

/-- The finite number that a value is, if it is one. -/
def amount? : Value → Except Fault (Option Amount)
  | .flag on => .ok (some { belowZero := false, whole := flagNumber on })
  | .whole value =>
    if examinable ≤ value.natAbs then .error .tooWide
    else .ok (some { belowZero := value < 0, whole := value })
  | .real number =>
    match number.truncate with
    | .ok cut => .ok (some { belowZero := number.isNegative, whole := cut })
    | .error _ => .ok none
  | _ => .ok none

end Value

end MinCostFlow
