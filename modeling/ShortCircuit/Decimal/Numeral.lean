/-
  ShortCircuit.Decimal.Numeral

  Integers and their decimal digits.  Reading and writing both refuse integers
  of more than `Fault.digitLimit` digits; the sign does not count, and leading
  zeros do.
-/

import ShortCircuit.Fault

namespace ShortCircuit.Decimal

/-- The decimal digits of a natural number; zero has one. -/
def natText (n : Nat) : List Char := Nat.toDigits 10 n

/-- The decimal text of an integer, with a minus sign where it is negative. -/
def intText (n : Int) : List Char :=
  if n < 0 then '-' :: natText n.natAbs else natText n.natAbs

/-- The number that a run of digits stands for, the most significant one first. -/
def natOfDigits (digits : List Nat) : Nat :=
  digits.foldl (fun n d => 10 * n + d) 0

/-- Write an integer, unless it is too long. -/
def writeInt (n : Int) : Except Fault (List Char) :=
  if (natText n.natAbs).length ≤ Fault.digitLimit then .ok (intText n)
  else .error .integerTooLong

/-- Read an integer from its sign and digits, unless there are too many. -/
def readInt (negative : Bool) (digits : List Nat) : Except Fault Int :=
  if digits.length ≤ Fault.digitLimit then
    let n : Int := natOfDigits digits
    .ok (if negative then -n else n)
  else .error (.numeralTooLong digits.length)

/-! ## Reading back what was written -/

/-- The digits of a number stand for it. -/
theorem natOfDigits_natText (n : Nat) :
    natOfDigits ((natText n).map fun c => c.toNat - '0'.toNat) = n := by
  rw [natOfDigits, List.foldl_map]
  exact Nat.ofDigitChars_toDigits (by decide) (by decide)

end ShortCircuit.Decimal
