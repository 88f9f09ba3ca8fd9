/-
  ShortCircuit.Decimal.Notation

  The parts of a number written in decimal with ASCII digits: the digits before
  the point, those behind it, and an exponent.  Each reader takes its part off
  the front of a text, and takes nothing where the part is not complete.
-/

import ShortCircuit.Decimal.Binary64
import ShortCircuit.Decimal.Numeral

namespace ShortCircuit.Decimal

def isAsciiDigit (c : Char) : Bool := decide ('0' ≤ c) && decide (c ≤ '9')

/-- The digits at the front of a text, by value, and the rest. -/
def spanDigits (s : List Char) : List Nat × List Char :=
  ((s.takeWhile isAsciiDigit).map fun c => c.toNat - '0'.toNat, s.dropWhile isAsciiDigit)

/-- The digits behind a point, if a point and a digit follow. -/
def fraction? : List Char → Option (List Nat × List Char)
  | '.' :: rest =>
    match spanDigits rest with
    | ([], _) => none
    | found => some found
  | _ => none

/-- Split off a sign. -/
def exponentSign : List Char → Bool × List Char
  | '-' :: rest => (true, rest)
  | '+' :: rest => (false, rest)
  | s => (false, s)

/-- The exponent, if there is one with a digit. -/
def exponent? : List Char → Option (Int × List Char)
  | mark :: rest =>
    if mark = 'e' || mark = 'E' then
      let (negative, rest) := exponentSign rest
      match spanDigits rest with
      | ([], _) => none
      | (digits, rest) =>
        let n : Int := natOfDigits digits
        some (if negative then -n else n, rest)
    else none
  | [] => none

/-- What follows the digits before the point. -/
structure Tail where
  fraction : Option (List Nat)
  exponent : Option Int

/-- Read the fraction and the exponent, as far as there are any. -/
def spanTail (s : List Char) : Tail × List Char :=
  let (fraction, s) : Option (List Nat) × List Char :=
    match fraction? s with
    | some (digits, rest) => (some digits, rest)
    | none => (none, s)
  match exponent? s with
  | some (n, rest) => (⟨fraction, some n⟩, rest)
  | none => (⟨fraction, none⟩, s)

/-- Whether there is neither a fraction nor an exponent. -/
def Tail.isEmpty (tail : Tail) : Bool := tail.fraction.isNone && tail.exponent.isNone

/-- The number of the binary format nearest to a number given by its parts. -/
def nearest (negative : Bool) (whole : List Nat) (tail : Tail) : Binary64 :=
  let fraction := tail.fraction.getD []
  .ofDecimal negative (natOfDigits (whole ++ fraction))
    (tail.exponent.getD 0 - (fraction.length : Int))

end ShortCircuit.Decimal

namespace ShortCircuit.Binary64

/-- Read the magnitude of a number from the whole of a text. -/
def ofMagnitudeText? (negative : Bool) (s : List Char) : Option Binary64 :=
  if s = "inf".toList then some (infinite negative)
  else
    match Decimal.spanDigits s with
    | ([], _) => none
    | (whole, rest) =>
      match Decimal.spanTail rest with
      | (tail, []) => some (Decimal.nearest negative whole tail)
      | _ => none

/-- Read a number from the whole of a text. -/
def ofText? (s : List Char) : Option Binary64 :=
  if s = "nan".toList then some nan
  else
    match s with
    | '-' :: rest => ofMagnitudeText? true rest
    | s => ofMagnitudeText? false s

end ShortCircuit.Binary64
