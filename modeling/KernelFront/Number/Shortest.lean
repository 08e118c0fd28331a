import KernelFront.Number.Binary64

/-! # The shortest decimal of a double-precision number

A number is written with the fewest decimal digits that read back as the same number, and with the
nearest of those decimals if there are several. The search tries one digit, then two, and so on: on
each decimal grid only the two neighbours of the exact value can be nearest to it, so these are the
only candidates. Seventeen digits always suffice.

The layout is positional in the middle of the range and scientific at both ends.
-/

namespace KernelFront

/-- A decimal number `digits * 10 ^ exponent`. -/
structure Decimal where
  digits : Nat
  exponent : Int
  deriving DecidableEq, Repr

namespace Decimal

/-- Drop trailing zeros of the digits, at most `fuel` of them. -/
def normalizeWith : Nat → Decimal → Decimal
  | 0, d => d
  | fuel + 1, d =>
      if d.digits ≠ 0 ∧ d.digits % 10 = 0 then
        normalizeWith fuel ⟨d.digits / 10, d.exponent + 1⟩
      else d

/-- The same value with no trailing zero among the digits. -/
def normalize (d : Decimal) : Decimal := normalizeWith d.digits.log2 d

/-- The position of the decimal point relative to the first digit. -/
def point (d : Decimal) : Int := (Nat.toDigits 10 d.digits).length + d.exponent

/-- All digits around a decimal point, with at least one digit on either side. -/
def positional (d : Decimal) : List Char :=
  let digits := Nat.toDigits 10 d.digits
  let point := d.point
  if point ≤ 0 then ['0', '.'] ++ List.replicate (-point).toNat '0' ++ digits
  else if digits.length ≤ point.toNat then
    digits ++ List.replicate (point.toNat - digits.length) '0' ++ ['.', '0']
  else digits.take point.toNat ++ '.' :: digits.drop point.toNat

/-- One digit before the decimal point, then a power of ten. -/
def scientific (d : Decimal) : List Char :=
  let mantissa := match Nat.toDigits 10 d.digits with
    | [] => []
    | [c] => [c]
    | c :: cs => c :: '.' :: cs
  mantissa ++ 'e' :: (toString (d.point - 1)).toList

/-- Positional layout from `0.0001` to below ten to the sixteenth, scientific layout elsewhere. -/
def render (d : Decimal) : List Char :=
  if -3 ≤ d.point ∧ d.point ≤ 16 then d.positional else d.scientific

end Decimal

namespace Binary64

/-- The least power of ten above a positive quotient. -/
def decimalPoint (num den : Nat) : Int :=
  let low := ((num.log2 : Int) - den.log2 - 1) * 30103 / 100000 - 1
  let candidates := [low, low + 1, low + 2, low + 3]
  (candidates.find? fun p => let (n, d) := scaleDecimal num den p; n < d).getD (low + 4)

/-- The nearest decimal with `count` digits that reads back as `x`. -/
def shortenedTo (x : Binary64) (point : Int) (count : Nat) : Option Decimal :=
  let exponent := point - count
  let (num, den) := scaleDecimal x.ratio.1 x.ratio.2 exponent
  let low := num / den
  let readsBack (digits : Nat) : Bool := nearest x.isNegative digits exponent == x
  if readsBack low && (num % den * 2 < den || !readsBack (low + 1)) then some ⟨low, exponent⟩
  else if readsBack (low + 1) then some ⟨low + 1, exponent⟩
  else none

/-- The shortest decimal that reads back as the finite nonzero number `x`. -/
def shortest (x : Binary64) : Decimal :=
  let point := decimalPoint x.ratio.1 x.ratio.2
  let counts := (List.range 17).map (· + 1)
  ((counts.findSome? (shortenedTo x point)).getD ⟨0, 0⟩).normalize

/-- The text of a number: a sign, then the shortest decimal. -/
def text (x : Binary64) : String :=
  if x.isNaN then "NaN"
  else
    let magnitude :=
      if !x.isFinite then ['i', 'n', 'f']
      else if x.significand = 0 then ['0', '.', '0']
      else x.shortest.render
    String.ofList (if x.isNegative then '-' :: magnitude else magnitude)

end Binary64

end KernelFront
