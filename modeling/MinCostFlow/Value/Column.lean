import MinCostFlow.Value
import MinCostFlow.Word

/-! # Columns of whole numbers

A column is a list of values that are cut down to words one by one. A value that is no
list is read as a column of no dimension, and nested lists of one shape as a table;
both are read in full before they are refused.
-/

namespace MinCostFlow.Value

mutual

/-- The lengths of a list and of the lists within it, level by level; nothing if they
    differ within a level. -/
def shape? : Value → Option (List Nat)
  | .list entries | .tuple entries => commonShape? entries
  | _ => some []

def commonShape? : List Value → Option (List Nat)
  | [] => some [0]
  | [entry] => (shape? entry).map (1 :: ·)
  | entry :: rest => do
    let inner ← shape? entry
    match ← commonShape? rest with
    | count :: others => if others = inner then some ((count + 1) :: inner) else none
    | [] => none

end

mutual

def leaves : Value → List Value
  | .list entries | .tuple entries => leavesOfEach entries
  | value => [value]

def leavesOfEach : List Value → List Value
  | [] => []
  | entry :: rest => leaves entry ++ leavesOfEach rest

end

/-- Lists can be nested this deep, and no deeper, to be read as a table. -/
def depthLimit : Nat := 64

def word (value : Value) : Except Fault Int := do
  Word.store (← value.wholeNumber)

/-- The words of a column. Lists of differing shape, or nested too deep, are refused
    before any of their entries is read. -/
def column (name : Column) (value : Value) : Except Fault (List Int) :=
  match shape? value with
  | none => .error .unreadable
  | some shape =>
    if depthLimit < shape.length then
      .error .unreadable
    else do
      let words ← (leaves value).mapM word
      if shape.length = 1 then
        return words
      else
        throw (.argument (.notFlat name))

end MinCostFlow.Value
