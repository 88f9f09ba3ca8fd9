/-
  ShortCircuit.Text.Quoted

  A text in quotes on one line, as labels show it.  Single quotes are used,
  unless the text has a single quote and no double one.  The quote in use and
  the backslash are escaped, and so is all that cannot be shown as it is.
-/

import ShortCircuit.Text.CodePoint
import ShortCircuit.Text.Hex
import ShortCircuit.Text.Printable

namespace ShortCircuit.Text

/-- The quotes to put around a text. -/
def quoteFor (s : Text) : Char :=
  if s.contains (.char '\'') && !s.contains (.char '"') then '"' else '\''

/-- How a character is written between quotes. -/
def quotedChar (quote c : Char) : List Char :=
  if c = quote || c = '\\' then ['\\', c]
  else if c = '\n' then ['\\', 'n']
  else if c = '\r' then ['\\', 'r']
  else if c = '\t' then ['\\', 't']
  else if isPrintable c then [c]
  else if c.toNat < 0x100 then '\\' :: 'x' :: hexText 2 c.toNat
  else if c.toNat < 0x10000 then '\\' :: 'u' :: hexText 4 c.toNat
  else '\\' :: 'U' :: hexText 8 c.toNat

/-- How a code point is written between quotes.  Half of a pair is no character to show. -/
def quotedPoint (quote : Char) : CodePoint → List Char
  | .char c => quotedChar quote c
  | .half unit _ => '\\' :: 'u' :: hexText 4 unit

/-- The text in quotes. -/
def quoted (s : Text) : List Char :=
  let quote := quoteFor s
  quote :: s.flatMap (quotedPoint quote) ++ [quote]

end ShortCircuit.Text
