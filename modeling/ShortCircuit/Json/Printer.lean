/-
  ShortCircuit.Json.Printer

  Values as JSON text over several lines, in ASCII alone.  Each level of nesting
  is indented by four columns; what is not ASCII is escaped by 16-bit units.
  Keys that are no texts are written as texts.  A value may be nested to any
  depth; the bound of a machine on nested calls is abstracted from.
-/

import ShortCircuit.Decimal.Numeral
import ShortCircuit.Decimal.Shortest
import ShortCircuit.Text.Hex
import ShortCircuit.Value

namespace ShortCircuit.Json

/-! ## Texts -/

/-- The escape of a 16-bit unit. -/
def unitEscape (unit : Nat) : List Char := '\\' :: 'u' :: Text.hexText 4 unit

/-- The characters with an escape of one letter. -/
def letterEscapes : List (Char × Char) :=
  [('"', '"'), ('\\', '\\'), ('\n', 'n'), ('\r', 'r'), ('\t', 't'), ('\x08', 'b'), ('\x0c', 'f')]

/-- A character between the quotes. -/
def textChar (c : Char) : List Char :=
  match letterEscapes.lookup c with
  | some letter => ['\\', letter]
  | none =>
    if 0x20 ≤ c.toNat && c.toNat < 0x7f then [c]
    else if c.toNat < 0x10000 then unitEscape c.toNat
    else
      let rest := c.toNat - 0x10000
      unitEscape (0xD800 + rest / 0x400) ++ unitEscape (0xDC00 + rest % 0x400)

/-- A code point between the quotes. -/
def textPoint : CodePoint → List Char
  | .char c => textChar c
  | .half unit _ => unitEscape unit

def writeText (s : Text) : List Char := '"' :: s.flatMap textPoint ++ ['"']

/-! ## Scalars -/

/-- A number of the binary format; those that are none have names. -/
def writeFloat (x : Binary64) : List Char :=
  if x.isNaN then "NaN".toList
  else if x.isFinite then x.text
  else if x.isNegative then "-Infinity".toList
  else "Infinity".toList

def writeScalar : Scalar → Except Fault (List Char)
  | .null => .ok "null".toList
  | .bool b => .ok (if b then "true" else "false").toList
  | .int n => Decimal.writeInt n
  | .float x => .ok (writeFloat x)
  | .text s => .ok (writeText s)

/-- The key of an entry, always a text. -/
def writeKey : Scalar → Except Fault (List Char)
  | .text s => .ok (writeText s)
  | s => do return writeText (.ofChars (← writeScalar s))

/-! ## Nesting -/

/-- A line break, and the indentation of a level. -/
def newLine (level : Nat) : List Char := '\n' :: List.replicate (4 * level) ' '

/-- Parts on lines of their own between brackets; without parts the brackets touch. -/
def bracketed (level : Nat) (opening closing : Char) : List (List Char) → List Char
  | [] => [opening, closing]
  | parts =>
    opening :: newLine (level + 1) ++ (',' :: newLine (level + 1)).intercalate parts ++
      newLine level ++ [closing]

mutual

/-- Write a value that stands at a level of nesting. -/
def writeAt (level : Nat) : Value → Except Fault (List Char)
  | .scalar s => writeScalar s
  | .list items => do return bracketed level '[' ']' (← writeItems (level + 1) items)
  | .table entries => do
    return bracketed level '\x7b' '\x7d' (← writeEntries (level + 1) entries)

def writeItems (level : Nat) : List Value → Except Fault (List (List Char))
  | [] => .ok []
  | item :: rest => do return (← writeAt level item) :: (← writeItems level rest)

def writeEntries (level : Nat) : List (Scalar × Value) → Except Fault (List (List Char))
  | [] => .ok []
  | (key, value) :: rest => do
    return ((← writeKey key) ++ ": ".toList ++ (← writeAt level value)) ::
      (← writeEntries level rest)

end

/-- Write a value. -/
def write (v : Value) : Except Fault (List Char) := writeAt 0 v

end ShortCircuit.Json
