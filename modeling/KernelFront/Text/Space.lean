/-! # White space and trimming

White space is the Unicode property of that name, not the smaller ASCII set. Names written by a
user are compared after white space on both ends has been dropped.
-/

namespace KernelFront.Text

/-- The characters with the Unicode property White_Space. -/
def isSpace (c : Char) : Bool :=
  let n := c.toNat
  (0x9 ≤ n && n ≤ 0xD) || n = 0x20 || n = 0x85 || n = 0xA0 || n = 0x1680 ||
    (0x2000 ≤ n && n ≤ 0x200A) || n = 0x2028 || n = 0x2029 || n = 0x202F || n = 0x205F ||
    n = 0x3000

/-- Drop the white space in front. -/
def trimStart (cs : List Char) : List Char := cs.dropWhile isSpace

/-- Drop the white space at the end. -/
def trimEnd (cs : List Char) : List Char := (cs.reverse.dropWhile isSpace).reverse

/-- Drop the white space on both ends. -/
def trim (cs : List Char) : List Char := trimEnd (trimStart cs)

/-- The text without white space on either end. -/
def trimmed (s : String) : String := String.ofList (trim s.toList)

end KernelFront.Text
