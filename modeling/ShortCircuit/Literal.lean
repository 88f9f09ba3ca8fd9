/-
  ShortCircuit.Literal

  The values that a literal can have.  Equality of literals compares values of
  one type only, and numbers of the binary format numerically.
-/

import ShortCircuit.Decimal.Binary64

namespace ShortCircuit

/-- The value of a literal. -/
inductive Literal where
  | bool (value : Bool)
  | int (value : Int)
  | float (value : Binary64)
  | text (value : String)
  deriving DecidableEq

namespace Literal

def isBoolean : Literal → Bool
  | bool _ => true
  | _ => false

/-- Equality of values: no boolean equals a number, and a number that is none equals nothing. -/
def same : Literal → Literal → Bool
  | bool a, bool b => a == b
  | int a, int b => a == b
  | float a, float b => a.numericEq b
  | text a, text b => a == b
  | _, _ => false

end Literal

end ShortCircuit
