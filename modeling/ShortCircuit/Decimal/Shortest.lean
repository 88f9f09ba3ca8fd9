/-
  ShortCircuit.Decimal.Shortest

  The text of a number of the 64-bit binary format: the fewest decimal digits
  that read back to it, and of those the nearest.  A decimal reads back when it
  lies between the midpoints to the two neighbours of the number; the midpoints
  themselves count when the significand is even.  Grids of one, two, … digits
  are tried in turn, in exact arithmetic; on each grid only the two neighbours
  of the number can read back.
-/

import ShortCircuit.Decimal.Binary64

namespace ShortCircuit

/-- The decimal `digits * 10 ^ exponent`. -/
structure Decimal where
  digits : Nat
  exponent : Int
  deriving DecidableEq

namespace Binary64

/-! ## Which decimals read back -/

/-- How `a * 10 ^ i` compares with `b * 2 ^ j`. -/
def compareScaled (a : Nat) (i : Int) (b : Nat) (j : Int) : Ordering :=
  compare (a * Nat.pow 10 i.toNat * Nat.pow 2 (-j).toNat)
    (b * Nat.pow 2 j.toNat * Nat.pow 10 (-i).toNat)

/-- The number below a power of two is half as far away as the number above. -/
def isNarrowBelow (x : Binary64) : Bool :=
  x.fractionField == 0 && decide (1 < x.exponentField)

/-- Whether a decimal lies among the reals nearest to the magnitude of a finite number. -/
def readsBack (x : Binary64) (d : Decimal) : Bool :=
  let lower := 4 * x.significand - (if x.isNarrowBelow then 1 else 2)
  let upper := 4 * x.significand + 2
  let closed := x.significand % 2 == 0
  let below := compareScaled d.digits d.exponent lower (x.scale - 2)
  let above := compareScaled d.digits d.exponent upper (x.scale - 2)
  (below == .gt || (closed && below == .eq)) && (above == .lt || (closed && above == .eq))

/-! ## The search -/

/-- Whether the magnitude is below `10 ^ k`. -/
def isBelowPower (x : Binary64) (k : Int) : Bool :=
  compareScaled 1 k x.significand x.scale == .gt

/-- The least `k` with the magnitude below `10 ^ k`, for a finite number other than zero.
    The binary exponent gives it up to one step either way. -/
def decimalPoint (x : Binary64) : Int :=
  let estimate : Int := ((Nat.log2 x.significand + x.scale) * 30103) / 100000
  if x.isBelowPower (estimate - 1) then estimate - 1
  else if x.isBelowPower estimate then estimate
  else if x.isBelowPower (estimate + 1) then estimate + 1
  else estimate + 2

/-- The magnitude in units of `10 ^ e`, rounded down. -/
def unitsBelow (x : Binary64) (e : Int) : Nat :=
  (x.significand * Nat.pow 2 x.scale.toNat * Nat.pow 10 (-e).toNat) /
    (Nat.pow 2 (-x.scale).toNat * Nat.pow 10 e.toNat)

/-- The decimal in units of `10 ^ e` that reads back, the nearer one where both neighbours
    of the magnitude do, and the even one where they are equally near. -/
def onGrid? (x : Binary64) (e : Int) : Option Decimal :=
  let units := x.unitsBelow e
  let down : Decimal := ⟨units, e⟩
  let up : Decimal := ⟨units + 1, e⟩
  match x.readsBack down, x.readsBack up with
  | true, true =>
    match compareScaled (2 * units + 1) e (2 * x.significand) x.scale with
    | .lt => some up
    | .gt => some down
    | .eq => some (if units % 2 == 0 then down else up)
  | true, false => some down
  | false, true => some up
  | false, false => none

/-- The magnitude itself as a decimal. -/
def exactDecimal (x : Binary64) : Decimal :=
  ⟨x.significand * Nat.pow 2 x.scale.toNat * Nat.pow 5 (-x.scale).toNat, min x.scale 0⟩

/-- The shortest decimal that reads back, for a finite number other than zero. -/
def shortest (x : Binary64) : Decimal :=
  let point := x.decimalPoint
  ((List.range 17).findSome? fun n => x.onGrid? (point - (n + 1 : Nat))).getD x.exactDecimal

/-! ## Notation -/

/-- Remove the zeros at the end. -/
def dropTrailingZeros (digits : List Char) : List Char :=
  (digits.reverse.dropWhile (· == '0')).reverse

/-- The two digits, at least, of an exponent, with its sign. -/
def exponentText (e : Int) : List Char :=
  let digits := Nat.toDigits 10 e.natAbs
  (if e < 0 then '-' else '+') :: (if digits.length < 2 then '0' :: digits else digits)

/-- Write digits whose first one has the value `10 ^ e`: with a decimal point where
    `-4 ≤ e < 16`, and with an exponent elsewhere. -/
def layOut (digits : List Char) (e : Int) : List Char :=
  if -4 ≤ e ∧ e < 0 then "0.".toList ++ List.replicate (-e - 1).toNat '0' ++ digits
  else if 0 ≤ e ∧ e < 16 then
    let whole := (e + 1).toNat
    let fraction := digits.drop whole
    digits.take whole ++ List.replicate (whole - digits.length) '0' ++
      '.' :: (if fraction.isEmpty then ['0'] else fraction)
  else
    let fraction := digits.drop 1
    digits.take 1 ++ (if fraction.isEmpty then [] else '.' :: fraction) ++
      'e' :: exponentText e

/-- The text of the magnitude of a finite number. -/
def magnitudeText (x : Binary64) : List Char :=
  if x.isZero then "0.0".toList
  else
    let d := x.shortest
    let digits := Nat.toDigits 10 d.digits
    layOut (dropTrailingZeros digits) (d.exponent + digits.length - 1)

/-- The text of a number. -/
def text (x : Binary64) : List Char :=
  if x.isNaN then "nan".toList
  else
    (if x.isNegative then ['-'] else []) ++
      (if x.isFinite then x.magnitudeText else "inf".toList)

end Binary64

end ShortCircuit
