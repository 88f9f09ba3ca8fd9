/-
  ShortCircuit.Decimal.Binary64

  Numbers of the 64-bit binary format, as bit patterns, and the exact passage
  from a decimal to the nearest of them.  A finite number is a sign and a
  product `m * 2 ^ q`; neighbouring patterns are neighbouring numbers, so that
  a significand rounded up to the next power of two needs no further care.
-/

namespace ShortCircuit

/-- A number of the 64-bit binary format, given by its bits. -/
structure Binary64 where
  bits : UInt64
  deriving DecidableEq

namespace Binary64

/-! ## Fields -/

def isNegative (x : Binary64) : Bool := decide (x.bits >>> 63 = 1)

/-- The eleven bits between the sign and the fraction. -/
def exponentField (x : Binary64) : Nat := ((x.bits >>> 52) &&& 0x7FF).toNat

/-- The fifty-two low bits. -/
def fractionField (x : Binary64) : Nat := (x.bits &&& 0xFFFFFFFFFFFFF).toNat

def isFinite (x : Binary64) : Bool := x.exponentField < 0x7FF

def isNaN (x : Binary64) : Bool := !x.isFinite && x.fractionField != 0

/-- The `m` of a finite number `m * 2 ^ q`. -/
def significand (x : Binary64) : Nat :=
  if x.exponentField = 0 then x.fractionField else Nat.pow 2 52 + x.fractionField

/-- The `q` of a finite number `m * 2 ^ q`. -/
def scale (x : Binary64) : Int := (max x.exponentField 1 : Nat) - 1075

def isZero (x : Binary64) : Bool := x.exponentField == 0 && x.fractionField == 0

/-! ## Construction -/

def signBit (negative : Bool) : UInt64 := if negative then 0x8000000000000000 else 0

def infinite (negative : Bool) : Binary64 := ⟨signBit negative ||| 0x7FF0000000000000⟩

def nan : Binary64 := ⟨0x7FF8000000000000⟩

/-- The number of a sign and a magnitude, magnitudes being counted in units of the format
    from zero upwards; what lies beyond the last finite one is infinite. -/
def ofMagnitude (negative : Bool) (magnitude : Nat) : Binary64 :=
  if magnitude < 0x7FF0000000000000 then ⟨signBit negative ||| magnitude.toUInt64⟩
  else infinite negative

/-- Whether `2 ^ e ≤ num / den`. -/
def powerFits (num den : Nat) (e : Int) : Bool :=
  decide (den * Nat.pow 2 e.toNat ≤ num * Nat.pow 2 (-e).toNat)

/-- The exponent of the greatest power of two that is not above `num / den`. -/
def leadingExponent (num den : Nat) : Int :=
  let e : Int := (Nat.log2 num : Int) - Nat.log2 den
  if powerFits num den e then e else e - 1

/-- The quotient rounded to the nearest integer, a half to the even neighbour. -/
def roundedQuotient (num den : Nat) : Nat :=
  let q := num / den
  let twice := 2 * (num % den)
  if twice < den || (twice == den && q % 2 == 0) then q else q + 1

/-- The number nearest to `num / den`, a tie going to the even significand. -/
def ofRatio (negative : Bool) (num den : Nat) : Binary64 :=
  if num = 0 then ofMagnitude negative 0
  else
    let q := max (leadingExponent num den - 52) (-1074)
    let m := roundedQuotient (num * Nat.pow 2 (-q).toNat) (den * Nat.pow 2 q.toNat)
    ofMagnitude negative ((q + 1074).toNat * Nat.pow 2 52 + m)

/-- The number nearest to `digits * 10 ^ exponent`.  Where the first digit stands above
    10 ^ 310 or below 10 ^ -330, the answer needs no arithmetic. -/
def ofDecimal (negative : Bool) (digits : Nat) (exponent : Int) : Binary64 :=
  let leading : Int := (Nat.toDigits 10 digits).length + exponent
  if digits = 0 || leading < -330 then ofMagnitude negative 0
  else if leading > 310 then infinite negative
  else ofRatio negative (digits * Nat.pow 10 exponent.toNat) (Nat.pow 10 (-exponent).toNat)

/-- Numeric equality: a number that is none equals nothing, and the two zeros are equal. -/
def numericEq (x y : Binary64) : Bool :=
  !x.isNaN && !y.isNaN && (x == y || (x.isZero && y.isZero))

/-! ## Integers -/

/-- The integer that a finite number equals, if it is one. -/
def toInt? (x : Binary64) : Option Int :=
  if !x.isFinite then none
  else
    let magnitude : Option Nat :=
      if 0 ≤ x.scale then some (x.significand * Nat.pow 2 x.scale.toNat)
      else if x.significand % Nat.pow 2 (-x.scale).toNat = 0 then
        some (x.significand / Nat.pow 2 (-x.scale).toNat)
      else none
    magnitude.map fun m => if x.isNegative then -(m : Int) else m

end Binary64

end ShortCircuit
