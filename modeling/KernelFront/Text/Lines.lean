/-! # Lines and columns

A position in a source text is a byte offset. For people it is a line and a column, both counted
from one: a line starts at the beginning of the text and after every newline byte, and the column
counts the bytes from there. A page that shows the text breaks its lines at more characters than
that, and a break at the end of the text opens no line.
-/

namespace KernelFront.Text

/-- The offsets at which the lines of a text start, given the text from `offset` on. -/
def lineStartsFrom (offset : Nat) : List Char → List Nat
  | [] => []
  | c :: cs =>
      let next := offset + c.utf8Size
      if c = '\n' then next :: lineStartsFrom next cs else lineStartsFrom next cs

/-- The offsets at which the lines of a text start, in ascending order. -/
def lineStarts (source : String) : List Nat := 0 :: lineStartsFrom 0 source.toList

/-- The line and column of an offset, given where the lines start: the last line that starts at or
before it. -/
def placeIn (starts : List Nat) (offset : Nat) : Nat × Nat :=
  let before := starts.takeWhile (· ≤ offset)
  (before.length, offset - before.getLastD 0 + 1)

/-- The line and column of a byte offset. -/
def lineCol (source : String) (offset : Nat) : Nat × Nat := placeIn (lineStarts source) offset

/-- Whether a character ends a line on a page: a newline, a carriage return, a vertical tab, a form
feed, or one of the separators of lines and paragraphs. -/
def isLineBreak (c : Char) : Bool :=
  c = '\n' || c = '\r' || c.toNat = 0x0B || c.toNat = 0x0C || c.toNat = 0x85 || c.toNat = 0x2028 ||
    c.toNat = 0x2029

/-- The offsets at which the lines of a page start, given the text from `offset` on. A carriage
return and a newline after it are one break; a break at the end of the text opens no line. -/
def pageStartsFrom (offset : Nat) : List Char → List Nat
  | [] | [_] => []
  | c :: d :: cs =>
      let next := offset + c.utf8Size
      let rest := pageStartsFrom next (d :: cs)
      if isLineBreak c && !(c = '\r' && d = '\n') then next :: rest else rest

/-- The offsets at which the lines of a page start, in ascending order. -/
def pageStarts (source : String) : List Nat := 0 :: pageStartsFrom 0 source.toList

/-- The line and column of a byte offset on a page. -/
def pageLineCol (source : String) (offset : Nat) : Nat × Nat := placeIn (pageStarts source) offset

end KernelFront.Text
