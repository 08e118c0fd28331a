import KernelFront.Number.Binary64

/-! # Decimal numerals

A numeral is a decimal as it is written. There are two ways to read it: `nearest` gives the double
closest to its value; `scaled` is quicker and may miss that by a little, because it rounds more than
once. It keeps the digits that fit sixty-four bits, rounds them to a double, and multiplies or
divides that by a power of ten, which is itself a rounded double.
-/

namespace KernelFront

/-- A decimal numeral: the digits before and after the point, and a power of ten. -/
structure Numeral where
  negative : Bool
  whole : List Char
  places : List Char := []
  exponent : Int := 0

namespace Numeral

/-- The value of a decimal digit. -/
def digitValue (c : Char) : Nat := c.toNat - 48

/-- The number that decimal digits denote. -/
def digitsValue (digits : List Char) : Nat :=
  digits.foldl (fun n c => 10 * n + digitValue c) 0

/-- The double nearest to a numeral. -/
def nearest (x : Numeral) : Binary64 :=
  .nearest x.negative (digitsValue (x.whole ++ x.places)) (x.exponent - x.places.length)

/-- Append digits to a number while it fits sixty-four bits; the digits from the first one that does
not fit are left over. -/
def appendDigits (n : Nat) : List Char → Nat × List Char
  | [] => (n, [])
  | c :: cs =>
      let next := 10 * n + digitValue c
      if next < 0x10000000000000000 then appendDigits next cs else (n, c :: cs)

/-- A power of ten as a double. -/
def powerOfTen (k : Nat) : Binary64 := .nearest false 1 k

/-- The largest exponent of a power of ten among the doubles. -/
def maxPower : Nat := 308

/-- A double times a power of ten, rounded at every step. A negative power past the range is applied
in two steps; two full steps leave nothing of a number below `10 ^ 308`. -/
def scale (x : Binary64) (exponent : Int) : Binary64 :=
  let zero := Binary64.nearest x.isNegative 0 0
  let size := exponent.natAbs
  if x.significand = 0 then x
  else if 0 ≤ exponent then
    if size ≤ maxPower then x.mul (powerOfTen size)
    else .ofMagnitude x.isNegative 0x7FF0000000000000
  else if size ≤ maxPower then x.div (powerOfTen size)
  else if size ≤ 2 * maxPower then
    (x.div (powerOfTen maxPower)).div (powerOfTen (size - maxPower))
  else zero

/-- The double that a numeral is read as with its leading digits only and a rounded scale. -/
def scaled (x : Numeral) : Binary64 :=
  let (whole, unread) := appendDigits 0 x.whole
  let (digits, ignored) := appendDigits whole x.places
  let kept := x.places.length - ignored.length
  scale (.nearest x.negative digits 0) (x.exponent + unread.length - kept)

end Numeral

end KernelFront
