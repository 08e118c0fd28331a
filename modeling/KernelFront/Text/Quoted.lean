import KernelFront.Text.Printable

/-! # Quoted text

A text is shown between double quotes. The quote, the backslash and four control characters have a
two-character escape, every other character that would not print as itself is written by its code
point, and all else stands for itself.
-/

namespace KernelFront.Text

/-- A number as a lower-case hexadecimal numeral of at least `width` digits. -/
def hexPadded (width n : Nat) : List Char :=
  let digits := (Nat.toDigits 16 n)
  List.replicate (width - digits.length) '0' ++ digits

/-- One character as it stands inside quotes. -/
def quoteChar (c : Char) : List Char :=
  if c = '"' then ['\\', '"']
  else if c = '\\' then ['\\', '\\']
  else if c = '\n' then ['\\', 'n']
  else if c = '\r' then ['\\', 'r']
  else if c = '\t' then ['\\', 't']
  else if c = Char.ofNat 0 then ['\\', '0']
  else if 0x20 ≤ c.toNat && c.toNat < 0x7F then [c]
  else if isGraphemeExtend c || isUnprintable c || isFiller c then
    ['\\', 'u', '\x7b'] ++ hexPadded 1 c.toNat ++ ['\x7d']
  else [c]

/-- A text between double quotes. -/
def quoted (s : String) : String :=
  String.ofList ('"' :: s.toList.flatMap quoteChar ++ ['"'])

end KernelFront.Text
