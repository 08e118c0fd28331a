/-! # Double-precision numbers by their bits

A constant of the compiled program is kept as the 64 bits of its double-precision representation.
Two numbers are equal when their bits are, so a NaN equals itself and the two zeros differ.

`nearest` gives the number closest to a decimal, the even one of two that are equally close. It
works on natural numbers throughout: the quotient is cut to 53 binary digits, or to fewer where the
smallest representable unit is reached, and the remainder decides the rounding.
-/

namespace KernelFront

/-- A double-precision number, given by its bits. -/
structure Binary64 where
  bits : UInt64
  deriving DecidableEq, Repr

namespace Binary64

/-- The leading bit of the significand of a normal number, which is not stored. -/
def hiddenBit : Nat := 0x10000000000000

/-- The bit that negative numbers have. -/
def signBit : Nat := 0x8000000000000000

/-- The biased exponent. -/
def exponentField (x : Binary64) : Nat := x.bits.toNat / hiddenBit % 2048

/-- The bits of the significand that are stored. -/
def fraction (x : Binary64) : Nat := x.bits.toNat % hiddenBit

/-- Whether the sign bit is set. -/
def isNegative (x : Binary64) : Bool := signBit ≤ x.bits.toNat

/-- Neither an infinity nor a NaN. -/
def isFinite (x : Binary64) : Bool := x.exponentField != 2047

/-- Whether this is not a number. -/
def isNaN (x : Binary64) : Bool := x.exponentField == 2047 && x.fraction != 0

/-- The quiet NaN without payload. -/
def nan : Binary64 := ⟨0x7FF8000000000000⟩

/-- The significand of a finite number, as an integer. -/
def significand (x : Binary64) : Nat :=
  if x.exponentField = 0 then x.fraction else hiddenBit + x.fraction

/-- The power of two that the significand of a finite number counts. -/
def power (x : Binary64) : Int :=
  if x.exponentField = 0 then -1074 else (x.exponentField : Int) - 1075

/-- The quotient `num / den * 2 ^ -e` as a numerator and a denominator. -/
def scaleBinary (num den : Nat) (e : Int) : Nat × Nat :=
  if 0 ≤ e then (num, den <<< e.toNat) else (num <<< (-e).toNat, den)

/-- The quotient `num / den * 10 ^ -e` as a numerator and a denominator. -/
def scaleDecimal (num den : Nat) (e : Int) : Nat × Nat :=
  if 0 ≤ e then (num, den * Nat.pow 10 e.toNat) else (num * Nat.pow 10 (-e).toNat, den)

/-- The integer nearest to a quotient, the even one of two that are equally near. -/
def roundQuotient (num den : Nat) : Nat :=
  let q := num / den
  let twice := 2 * (num % den)
  if twice < den then q
  else if den < twice then q + 1
  else q + q % 2

/-- The exponent of the unit in which a positive quotient has 53 binary digits, or the smallest
representable unit if that is larger. -/
def unitExponent (num den : Nat) : Int :=
  let estimate := (num.log2 : Int) - den.log2 - 53
  let (n, d) := scaleBinary num den estimate
  max (-1074) (if n < d <<< 53 then estimate else estimate + 1)

/-- The bits, sign apart, of the number nearest to a quotient. Past the largest number these are
the bits of infinity. -/
def magnitudeBits (num den : Nat) : Nat :=
  if num = 0 then 0
  else
    let e := unitExponent num den
    let (n, d) := scaleBinary num den e
    min 0x7FF0000000000000 ((e + 1074).toNat * hiddenBit + roundQuotient n d)

/-- The number with the given sign and magnitude bits. -/
def ofMagnitude (negative : Bool) (magnitude : Nat) : Binary64 :=
  ⟨UInt64.ofNat (if negative then signBit + magnitude else magnitude)⟩

/-- The number nearest to `digits * 10 ^ exponent`. Exponents far outside the representable range
are answered without computing the power. -/
def nearest (negative : Bool) (digits : Nat) (exponent : Int) : Binary64 :=
  if digits = 0 then ofMagnitude negative 0
  else if 400 < exponent then ofMagnitude negative 0x7FF0000000000000
  else if (digits.log2 : Int) + 3 * exponent < -1200 then ofMagnitude negative 0
  else
    let (num, den) := scaleDecimal digits 1 (-exponent)
    ofMagnitude negative (magnitudeBits num den)

/-- The number nearest to an integer. -/
def ofInt (n : Int) : Binary64 := ofMagnitude (n < 0) (magnitudeBits n.natAbs 1)

/-- The magnitude of a finite number as a numerator and a denominator. -/
def ratio (x : Binary64) : Nat × Nat := scaleBinary x.significand 1 (-x.power)

/-- The product of two finite numbers, rounded. -/
def mul (x y : Binary64) : Binary64 :=
  ofMagnitude (x.isNegative != y.isNegative)
    (magnitudeBits (x.ratio.1 * y.ratio.1) (x.ratio.2 * y.ratio.2))

/-- The quotient of a finite number by one that is finite and not zero, rounded. -/
def div (x y : Binary64) : Binary64 :=
  ofMagnitude (x.isNegative != y.isNegative)
    (magnitudeBits (x.ratio.1 * y.ratio.2) (x.ratio.2 * y.ratio.1))

end Binary64

end KernelFront
