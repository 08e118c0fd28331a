import KernelFront.Number.Binary64
import KernelFront.Toml.Digits

/-! # Numbers of TOML

Nothing depends on the value of a number but whether it is in range: a number is accepted as it is
written or refused.
-/

namespace KernelFront.Toml

/-- The decimal digits of a whole number: no zero stands in front. -/
def wholeDigits? (cs : List Char) : Option (List Char) := do
  let digits ← digits? Char.isDigit cs
  if digits.length > 1 && digits.head? = some '0' then none else some digits

/-- A numeral without its sign, and whether the sign is a minus. -/
def splitSign : List Char → Bool × Bool × List Char
  | '+' :: cs => (true, false, cs)
  | '-' :: cs => (true, true, cs)
  | cs => (false, false, cs)

/-- Whether a text is an integer that fits sixty-four bits. -/
def isInteger (cs : List Char) : Bool :=
  let bound : Nat := 0x8000000000000000
  let inBase (base : Nat) (digits : List Char) : Bool :=
    match digits? (isDigitOf base) digits with
    | some digits => valueOfDigits base digits < bound
    | none => false
  match cs with
  | '0' :: 'x' :: digits => inBase 16 digits
  | '0' :: 'o' :: digits => inBase 8 digits
  | '0' :: 'b' :: digits => inBase 2 digits
  | cs =>
      let (_, negative, digits) := splitSign cs
      match wholeDigits? digits with
      | some digits =>
          let value := valueOfDigits 10 digits
          value < bound || (negative && value = bound)
      | none => false

/-- The exponent that a text after its mark denotes. -/
def exponent? (cs : List Char) : Option Int := do
  let (_, negative, digits) := splitSign cs
  let value := valueOfDigits 10 (← digits? Char.isDigit digits)
  pure (if negative then -value else value)

/-- The number that a decimal without a sign denotes. It has a fraction, an exponent or both. -/
def magnitude? (cs : List Char) : Option Binary64 := do
  let isMark (c : Char) : Bool := c = 'e' || c = 'E'
  let mantissa := cs.takeWhile fun c => !isMark c
  let power := cs.dropWhile fun c => !isMark c
  let whole ← wholeDigits? (mantissa.takeWhile (· ≠ '.'))
  let fraction ← match mantissa.dropWhile (· ≠ '.') with
    | [] => if power.isEmpty then none else some []
    | _ :: digits => digits? Char.isDigit digits
  let exponent ← match power with
    | [] => some 0
    | _ :: digits => exponent? digits
  pure (.nearest false (valueOfDigits 10 (whole ++ fraction)) (exponent - fraction.length))

/-- Whether a text is a floating-point number. A decimal above the range is refused; one below it
counts as negative infinity. -/
def isFloat (cs : List Char) : Bool :=
  let (_, negative, cs) := splitSign cs
  if cs = ['i', 'n', 'f'] || cs = ['n', 'a', 'n'] then true
  else (magnitude? cs).any fun x => negative || x.isFinite

/-- Whether a character can stand in a number. -/
def isNumberChar (c : Char) : Bool :=
  c.isAlphanum || c = '+' || c = '-' || c = '_' || c = '.'

/-- Read a number; the result is its text and what follows it. -/
def numberTail? (cs : List Char) : Option (List Char × List Char) :=
  let word := cs.takeWhile isNumberChar
  if isInteger word || isFloat word then some (word, cs.dropWhile isNumberChar) else none

end KernelFront.Toml
