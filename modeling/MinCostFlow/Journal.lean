import MinCostFlow.Options

/-! # What a solve reports on its way

A journal is the list of everything that happened, in order. A reader who wants less
keeps the records from some level upwards.
-/

namespace MinCostFlow

/-- How much a record matters, least first. -/
inductive Level where
  | debug
  | info
  | warning
  | error
  deriving Repr, DecidableEq

def Level.rank : Level → Nat
  | .debug => 0
  | .info => 1
  | .warning => 2
  | .error => 3

def Level.name : Level → String
  | .debug => "DEBUG"
  | .info => "INFO"
  | .warning => "WARNING"
  | .error => "ERROR"

/-- The parts of the library that report. -/
inductive Reporter where
  | solver
  | verifier
  deriving Repr, DecidableEq

/-- One thing that happened. -/
inductive Record where
  /-- The check before a solve found a cycle that costs less than nothing. -/
  | cycleFound (nodes : List Nat)
  /-- The search for paths begins. -/
  | started (nodes arcs : Nat) (source sink : Int) (options : Options)
  /-- Flow was sent along a path; `flow` and `cost` are the totals so far. -/
  | augmented (units unitCost : Int) (iteration : Nat) (flow cost : Int)
  /-- The check after a solve found a node whose balance is not as expected. -/
  | unbalanced (node : Nat) (balance expected : Int)
  /-- The solve came to its end with these totals. -/
  | finished (flow cost : Int) (iterations : Nat)
  deriving Repr, DecidableEq

namespace Record

def level : Record → Level
  | .cycleFound .. => .warning
  | .started .. => .info
  | .augmented .. => .debug
  | .unbalanced .. => .warning
  | .finished .. => .info

def reporter : Record → Reporter
  | .unbalanced .. => .verifier
  | _ => .solver

def message : Record → String
  | .cycleFound .. => "Negative cost cycle found"
  | .started .. => "Starting successive shortest path solver"
  | .augmented units unitCost .. => s!"Augmented {units} units at unit cost {unitCost}"
  | .unbalanced .. => "Flow conservation check failed"
  | .finished .. => "Solver finished"

end Record

/-- Records in the order in which they were made. -/
abbrev Journal := List Record

/-- The records that matter at least as much as `level`. -/
def Journal.atLeast (journal : Journal) (level : Level) : Journal :=
  journal.filter fun record => level.rank ≤ record.level.rank

@[simp] theorem Journal.atLeast_debug (journal : Journal) : journal.atLeast .debug = journal := by
  simp [Journal.atLeast, Level.rank]

end MinCostFlow
