/-
  ShortCircuit.Value.Text

  A value on one line.  A text stands for itself, and in quotes where it is
  part of another value.
-/

import ShortCircuit.Decimal.Numeral
import ShortCircuit.Decimal.Shortest
import ShortCircuit.Text.Quoted
import ShortCircuit.Value

namespace ShortCircuit

/-- A scalar as a part of a value. -/
def Scalar.shown : Scalar → Except Fault (List Char)
  | null => .ok "None".toList
  | bool b => .ok (if b then "True" else "False").toList
  | int n => Decimal.writeInt n
  | float x => .ok x.text
  | text s => .ok (Text.quoted s)

/-- A scalar on its own. -/
def Scalar.plain : Scalar → Except Fault Text
  | text s => .ok s
  | s => do return Text.ofChars (← s.shown)

namespace Value

mutual

/-- A value as a part of another one. -/
def shown : Value → Except Fault (List Char)
  | scalar s => s.shown
  | list items => do
    return '[' :: ", ".toList.intercalate (← shownItems items) ++ [']']
  | table entries => do
    return '\x7b' :: ", ".toList.intercalate (← shownEntries entries) ++ ['\x7d']

def shownItems : List Value → Except Fault (List (List Char))
  | [] => .ok []
  | item :: rest => do return (← item.shown) :: (← shownItems rest)

def shownEntries : List (Scalar × Value) → Except Fault (List (List Char))
  | [] => .ok []
  | (key, value) :: rest => do
    return ((← key.shown) ++ ": ".toList ++ (← value.shown)) :: (← shownEntries rest)

end

/-- A value on its own. -/
def plain : Value → Except Fault Text
  | scalar s => s.plain
  | v => do return Text.ofChars (← v.shown)

end Value

end ShortCircuit
