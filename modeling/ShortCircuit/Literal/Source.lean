/-
  ShortCircuit.Literal.Source

  Literals as source text.  Texts stand between double quotes, six characters
  of them escaped; numbers are written in decimal.
-/

import ShortCircuit.Decimal.Numeral
import ShortCircuit.Decimal.Shortest
import ShortCircuit.Literal

namespace ShortCircuit.Literal

/-- The characters that are escaped, each with the letter that stands for it. -/
def escapes : List (Char × Char) :=
  [('\\', '\\'), ('"', '"'), ('\n', 'n'), ('\r', 'r'), ('\t', 't'), ('\x00', '0')]

/-- A character between the quotes. -/
def sourceChar (c : Char) : List Char :=
  match escapes.lookup c with
  | some letter => ['\\', letter]
  | none => [c]

/-- A literal as source text; only an integer can be too long to be written. -/
def source : Literal → Except Fault (List Char)
  | bool true => .ok "true".toList
  | bool false => .ok "false".toList
  | int n => Decimal.writeInt n
  | float x => .ok x.text
  | text s => .ok ('"' :: s.toList.flatMap sourceChar ++ ['"'])

end ShortCircuit.Literal
