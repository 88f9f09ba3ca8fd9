/-
  ShortCircuit.Kind.Constant

  Reading a constant expression from source text: the unit value or a literal,
  with blanks around it that do not matter.
-/

import ShortCircuit.Kind
import ShortCircuit.Literal.Grammar

namespace ShortCircuit

/-- Read a constant expression. -/
def Kind.ofSource (source : List Char) : Except Fault Kind :=
  let source := Text.strip source
  if source = "()".toList then .ok .unit else (Literal.read source).map .literal

end ShortCircuit
