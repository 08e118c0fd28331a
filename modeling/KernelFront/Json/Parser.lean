import KernelFront.Json.Value
import KernelFront.Number.Numeral

/-! # Reading JSON text

One value with white space around it. A numeral without fraction and exponent is an integer if it
fits sixty-four bits, signed or unsigned; every other numeral, and a negative zero, is a double, and
a numeral past the largest double is refused. Whoever reads a text says how a numeral becomes a
double and how deep arrays and objects may nest; `parse?` takes the quick way and a fixed depth.
-/

namespace KernelFront.Json

/-- Drop the white space of JSON. -/
def skipBlank (cs : List Char) : List Char :=
  cs.dropWhile fun c => c = ' ' || c = '\n' || c = '\t' || c = '\r'

/-- The value of a hexadecimal digit. -/
def hexValue? (c : Char) : Option Nat :=
  if c.isDigit then some (c.toNat - 48)
  else if 'a' ≤ c ∧ c ≤ 'f' then some (c.toNat - 87)
  else if 'A' ≤ c ∧ c ≤ 'F' then some (c.toNat - 55)
  else none

/-- The value of four hexadecimal digits. -/
def hexWord? (a b c d : Char) : Option Nat := do
  let a ← hexValue? a
  let b ← hexValue? b
  let c ← hexValue? c
  let d ← hexValue? d
  some (((a * 16 + b) * 16 + c) * 16 + d)

/-- The character of a simple escape. -/
def simpleEscape? : Char → Option Char
  | '"' => some '"'
  | '\\' => some '\\'
  | '/' => some '/'
  | 'b' => some (Char.ofNat 8)
  | 'f' => some (Char.ofNat 12)
  | 'n' => some '\n'
  | 'r' => some '\r'
  | 't' => some '\t'
  | _ => none

/-- Read the rest of a string, after the opening quote. -/
def stringTail : List Char → Option (List Char × List Char)
  | [] => none
  | '"' :: rest => some ([], rest)
  | '\\' :: 'u' :: a :: b :: c :: d :: rest =>
      match hexWord? a b c d with
      | none => none
      | some unit =>
          if 0xD800 ≤ unit ∧ unit < 0xDC00 then
            match rest with
            | '\\' :: 'u' :: e :: f :: g :: h :: rest =>
                match hexWord? e f g h with
                | none => none
                | some low =>
                    if 0xDC00 ≤ low ∧ low < 0xE000 then
                      (stringTail rest).map fun (text, rest) =>
                        (Char.ofNat (0x10000 + (unit - 0xD800) * 0x400 + (low - 0xDC00)) :: text,
                          rest)
                    else none
            | _ => none
          else if 0xDC00 ≤ unit ∧ unit < 0xE000 then none
          else (stringTail rest).map fun (text, rest) => (Char.ofNat unit :: text, rest)
  | '\\' :: c :: rest =>
      match simpleEscape? c with
      | none => none
      | some c => (stringTail rest).map fun (text, rest) => (c :: text, rest)
  | c :: rest =>
      if c.toNat < 0x20 ∨ c = '\\' then none
      else (stringTail rest).map fun (text, rest) => (c :: text, rest)

/-- Read the exponent of a numeral; absent is zero. -/
def exponentTail : List Char → Option (Option Int × List Char)
  | c :: cs =>
      if c = 'e' ∨ c = 'E' then
        let (negative, cs) := match cs with
          | '-' :: rest => (true, rest)
          | '+' :: rest => (false, rest)
          | rest => (false, rest)
        let digits := cs.takeWhile Char.isDigit
        if digits.isEmpty then none
        else
          let n : Int := Numeral.digitsValue digits
          some (some (if negative then -n else n), cs.dropWhile Char.isDigit)
      else some (none, c :: cs)
  | [] => some (none, [])

/-- Read the fraction of a numeral; absent is no digits. -/
def fractionTail : List Char → Option (Option (List Char) × List Char)
  | '.' :: cs =>
      let digits := cs.takeWhile Char.isDigit
      if digits.isEmpty then none else some (some digits, cs.dropWhile Char.isDigit)
  | cs => some (none, cs)

/-- The integer that a whole number stands for, if it fits sixty-four bits; a negative zero is none.
-/
def integer? (negative : Bool) (n : Nat) : Option Int :=
  if negative then
    if n ≠ 0 ∧ n ≤ 0x8000000000000000 then some (-n) else none
  else if n < 0x10000000000000000 then some n
  else none

variable (double : Numeral → Binary64)

/-- The double that a numeral stands for, which must be finite. -/
def double? (numeral : Numeral) : Option Json :=
  let value := double numeral
  if value.isFinite then some (.float value) else none

/-- Read a numeral after its sign. -/
def numberTail (negative : Bool) (cs : List Char) : Option (Json × List Char) := do
  let whole := cs.takeWhile Char.isDigit
  if whole.isEmpty || (whole.length > 1 && whole.head? == some '0') then none
  let (fraction, cs) ← fractionTail (cs.dropWhile Char.isDigit)
  let (exponent, cs) ← exponentTail cs
  let numeral : Numeral := ⟨negative, whole, fraction.getD [], exponent.getD 0⟩
  let value ← match fraction, exponent, integer? negative (Numeral.digitsValue whole) with
    | none, none, some n => some (.int n)
    | _, _, _ => double? double numeral
  some (value, cs)

/-- Read the items of an array, after the opening bracket and up to the closing one. -/
def itemsTail (item : List Char → Option (Json × List Char)) :
    Nat → List Char → Option (List Json × List Char)
  | 0, _ => none
  | fuel + 1, cs => do
      let (value, rest) ← item cs
      match skipBlank rest with
      | ']' :: rest => some ([value], rest)
      | ',' :: rest =>
          let (values, rest) ← itemsTail item fuel rest
          some (value :: values, rest)
      | _ => none

/-- Read the members of an object, after the opening brace and up to the closing one. -/
def membersTail (item : List Char → Option (Json × List Char)) :
    Nat → List Char → Option (List (String × Json) × List Char)
  | 0, _ => none
  | fuel + 1, cs => do
      let '"' :: rest := skipBlank cs | none
      let (key, rest) ← stringTail rest
      let ':' :: rest := skipBlank rest | none
      let (value, rest) ← item rest
      match skipBlank rest with
      | '\x7d' :: rest => some ([(String.ofList key, value)], rest)
      | ',' :: rest =>
          let (members, rest) ← membersTail item fuel rest
          some ((String.ofList key, value) :: members, rest)
      | _ => none

/-- Drop a word that the text must start with. -/
def dropWord? : List Char → List Char → Option (List Char)
  | [], cs => some cs
  | w :: word, c :: cs => if w = c then dropWord? word cs else none
  | _ :: _, [] => none

/-- Read a value that holds at most `depth` arrays and objects nested in one another. -/
def valueTail : Nat → List Char → Option (Json × List Char)
  | depth, cs =>
      match skipBlank cs with
      | 'n' :: rest => (dropWord? ['u', 'l', 'l'] rest).map (.null, ·)
      | 't' :: rest => (dropWord? ['r', 'u', 'e'] rest).map (.bool true, ·)
      | 'f' :: rest => (dropWord? ['a', 'l', 's', 'e'] rest).map (.bool false, ·)
      | '"' :: rest => (stringTail rest).map fun (text, rest) => (.str (String.ofList text), rest)
      | '-' :: rest => numberTail double true rest
      | '[' :: rest =>
          match depth with
          | 0 => none
          | depth + 1 =>
              match skipBlank rest with
              | ']' :: rest => some (.arr [], rest)
              | rest =>
                  (itemsTail (valueTail depth) (rest.length + 1) rest).map fun (items, rest) =>
                    (.arr items, rest)
      | '\x7b' :: rest =>
          match depth with
          | 0 => none
          | depth + 1 =>
              match skipBlank rest with
              | '\x7d' :: rest => some (.obj [], rest)
              | rest =>
                  (membersTail (valueTail depth) (rest.length + 1) rest).map fun (members, rest) =>
                    (.obj members, rest)
      | rest => numberTail double false rest

/-- The number of arrays and objects that may be nested in one another. -/
def nestingLimit : Nat := 127

/-- Read a JSON text in which at most `depth` arrays and objects are nested in one another. -/
def parseWith? (depth : Nat) (text : String) : Option Json := do
  let (value, rest) ← valueTail double depth text.toList
  if (skipBlank rest).isEmpty then some value else none

/-- Read a JSON text. -/
def parse? (text : String) : Option Json := parseWith? Numeral.scaled nestingLimit text

end KernelFront.Json
