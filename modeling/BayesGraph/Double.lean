/-!
# Double-precision numbers as exact data

A double is its 64 bits. A finite one stands for the rational number
`± mantissa * 2 ^ exponent`, and `nearest` goes the other way: it rounds a quotient of natural
numbers to the nearest double, a tie to the even mantissa, and too large a quotient to infinity.
Everything here is arithmetic on natural numbers and integers, so that printing and reading of
numbers rest on no floating-point operation.
-/

set_option autoImplicit false

namespace BayesGraph

/-- A double-precision number, given by its 64 bits. -/
structure Double where
  bits : UInt64
deriving DecidableEq, Inhabited

namespace Double

/-- The machine number with these bits. -/
def toFloat (x : Double) : Float := Float.ofBits x.bits

/-- The bits of a machine number. -/
def ofFloat (x : Float) : Double := ⟨x.toBits⟩

/-- The sign bit; it is set for negative zero too. -/
def isNegative (x : Double) : Bool := x.bits >>> 63 == 1

/-- The eleven exponent bits as they are stored. -/
def biasedExponent (x : Double) : Nat := ((x.bits >>> 52) &&& 0x7ff).toNat

/-- The 52 fraction bits as they are stored. -/
def fraction (x : Double) : Nat := (x.bits &&& 0xfffffffffffff).toNat

/-- Neither infinite nor a NaN. -/
def isFinite (x : Double) : Bool := x.biasedExponent != 2047

/-- Is the double no number? -/
def isNaN (x : Double) : Bool := x.biasedExponent == 2047 && x.fraction != 0

/-- Is the double an infinity? -/
def isInfinite (x : Double) : Bool := x.biasedExponent == 2047 && x.fraction == 0

/-- The integral mantissa: a normal number has the hidden bit added. -/
def mantissa (x : Double) : Nat :=
  if x.biasedExponent = 0 then x.fraction else x.fraction + Nat.pow 2 52

/-- The power of two that scales the integral mantissa. -/
def exponent (x : Double) : Int :=
  if x.biasedExponent = 0 then -1074 else (x.biasedExponent : Int) - 1075

/-- Either zero. -/
def isZero (x : Double) : Bool := x.biasedExponent == 0 && x.fraction == 0

/-- Numerator of the magnitude of a finite number. -/
def numerator (x : Double) : Nat := x.mantissa * Nat.pow 2 x.exponent.toNat

/-- Denominator of the magnitude of a finite number; a power of two. -/
def denominator (x : Double) : Nat := Nat.pow 2 (-x.exponent).toNat

/-- The double with the given sign whose magnitude is `mantissa * 2 ^ exponent`. The mantissa is
below `2 ^ 53`, and it has 53 bits unless the exponent is the least one. -/
def ofParts (negative : Bool) (mantissa : Nat) (exponent : Int) : Double :=
  let magnitude : Nat :=
    if mantissa < Nat.pow 2 52 then mantissa
    else if exponent > 971 then 2047 * Nat.pow 2 52
    else (exponent + 1075).toNat * Nat.pow 2 52 + (mantissa - Nat.pow 2 52)
  ⟨(magnitude + (if negative then Nat.pow 2 63 else 0)).toUInt64⟩

/-- The quotient rounded to the nearest natural number, a tie to the even one. -/
def roundQuotient (num den : Nat) : Nat :=
  let q := num / den
  let r := num % den
  if 2 * r < den then q
  else if den < 2 * r then q + 1
  else if q % 2 = 0 then q else q + 1

/-- The exponent `e` with `2 ^ e ≤ num / den < 2 ^ (e + 1)`, for positive arguments. -/
def binaryOrder (num den : Nat) : Int :=
  let guess : Int := (Nat.log2 num : Int) - Nat.log2 den
  if num * Nat.pow 2 (-guess).toNat < den * Nat.pow 2 guess.toNat then guess - 1 else guess

/-- The double nearest to `num / den` with the given sign; a tie goes to the even mantissa, and
what rounds past the largest finite double becomes infinite. -/
def nearest (negative : Bool) (num den : Nat) : Double :=
  if num = 0 then ofParts negative 0 (-1074)
  else
    let exponent := max (binaryOrder num den - 52) (-1074)
    let mantissa :=
      roundQuotient (num * Nat.pow 2 (-exponent).toNat) (den * Nat.pow 2 exponent.toNat)
    if mantissa = Nat.pow 2 53 then ofParts negative (Nat.pow 2 52) (exponent + 1)
    else ofParts negative mantissa exponent

/-- The double nearest to the quotient of two integers. -/
def ofQuotient (m n : Int) : Double :=
  nearest (decide (m < 0) != decide (n < 0)) m.natAbs n.natAbs

/-- The double nearest to an integer. -/
def ofInt (n : Int) : Double := ofQuotient n 1

/-- The integer that a finite double equals, if it is integral. -/
def toInt? (x : Double) : Option Int :=
  if !x.isFinite || x.numerator % x.denominator != 0 then none
  else
    let magnitude : Int := (x.numerator / x.denominator : Nat)
    some (if x.isNegative then -magnitude else magnitude)

/-- The positive infinity. -/
def infinity : Double := ofParts false (Nat.pow 2 52) 972

/-- A NaN. -/
def nan : Double := ⟨0x7ff8000000000000⟩

/-- Zero without a sign. -/
def zero : Double := ⟨0⟩

/-- Is the number below zero? A NaN and both zeros are not. -/
def isBelowZero (x : Double) : Bool := x.isNegative && !x.isZero && !x.isNaN

/-- Is the magnitude at least `num / den`? An infinite one is, a NaN is not. -/
def magnitudeAtLeast (x : Double) (num den : Nat) : Bool :=
  if x.isFinite then num * x.denominator ≤ x.numerator * den else x.isInfinite

end Double

end BayesGraph
