import MinCostFlow.Fault

/-! # Options of a solve

Options are an immutable value. They are made and changed by field name, so that a
name which is no field is a fault of its own.
-/

namespace MinCostFlow

/-- How a single solve is to go. -/
structure Options where
  /-- At most this much flow in total, or as much as possible. -/
  maxFlow : Option Int := none
  /-- Without this, usable arcs of negative cost are refused. -/
  allowNegativeCosts : Bool := true
  /-- Look for a cycle that costs less than nothing before solving. -/
  checkNegativeCycles : Bool := false
  /-- Start from the cheapest distances as potentials instead of from zero. -/
  seedPotentials : Bool := false
  /-- Check the balance of every node after solving. -/
  verifyConservation : Bool := false
  deriving Repr, DecidableEq

/-- The content of a field. -/
inductive Setting where
  | limit (bound : Option Int)
  | flag (on : Bool)
  deriving Repr, DecidableEq

namespace Setting

def text : Setting → String
  | .limit none => "None"
  | .limit (some bound) => toString bound
  | .flag true => "True"
  | .flag false => "False"

end Setting

namespace Options

/-- The fields by name, in their fixed order. -/
def fields (options : Options) : List (String × Setting) :=
  [("max_flow", .limit options.maxFlow),
   ("allow_negative_costs", .flag options.allowNegativeCosts),
   ("check_negative_cycles", .flag options.checkNegativeCycles),
   ("use_bellman_ford_init_potentials", .flag options.seedPotentials),
   ("verify_conservation", .flag options.verifyConservation)]

def change (options : Options) : String × Setting → Except Fault Options
  | ("max_flow", .limit bound) => .ok { options with maxFlow := bound }
  | ("allow_negative_costs", .flag on) => .ok { options with allowNegativeCosts := on }
  | ("check_negative_cycles", .flag on) => .ok { options with checkNegativeCycles := on }
  | ("use_bellman_ford_init_potentials", .flag on) => .ok { options with seedPotentials := on }
  | ("verify_conservation", .flag on) => .ok { options with verifyConservation := on }
  | (name, _) => .error (.unknownField name)

def replace (options : Options) (changes : List (String × Setting)) : Except Fault Options :=
  changes.foldlM change options

def ofFields (given : List (String × Setting)) : Except Fault Options :=
  ({} : Options).replace given

/-- Setting a field in place is always refused, whatever the name. -/
def assign (_ : Options) (_ : String) : Except Fault Options := .error .frozen

def text (options : Options) : String :=
  "FlowOptions(" ++
    ", ".intercalate (options.fields.map fun (name, setting) => name ++ "=" ++ setting.text) ++ ")"

theorem replace_fields (options : Options) : options.replace options.fields = .ok options := rfl

end Options

end MinCostFlow
