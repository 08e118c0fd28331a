import KernelFront.Toml.Number
import KernelFront.Toml.Value

/-! # Reading TOML

A document is read line by line: blank lines, headers, and names with values. A value begins and
ends on its line unless it is an array or a string of several lines. Everything that the format
forbids is refused, a name that is given twice included.
-/

namespace KernelFront.Toml

/-- Whether a character is blank within a line. -/
def isBlank (c : Char) : Bool := c = ' ' || c = '\t'

/-- Drop blanks within a line. -/
def skipBlanks (cs : List Char) : List Char := cs.dropWhile isBlank

/-- Whether a character may stand in a comment or a string: a tab, or anything that is no control
character. -/
def isPlain (c : Char) : Bool := c = '\t' || (0x20 ≤ c.toNat && c.toNat ≠ 0x7F)

/-- What follows the end of a line, if the text begins with one. -/
def lineEnd? : List Char → Option (List Char)
  | '\n' :: rest => some rest
  | '\r' :: '\n' :: rest => some rest
  | _ => none

/-- Drop a comment up to the end of its line. -/
def skipComment : List Char → List Char
  | '#' :: rest => rest.dropWhile isPlain
  | cs => cs

/-- What follows a line after its content. -/
def restOfLine? (cs : List Char) : Option (List Char) :=
  match skipComment (skipBlanks cs) with
  | [] => some []
  | cs => lineEnd? cs

/-- Drop blanks, comments and ends of lines. -/
def skipLines : List Char → List Char
  | [] => []
  | ' ' :: rest | '\t' :: rest | '\n' :: rest => skipLines rest
  | '\r' :: '\n' :: rest => skipLines rest
  | '#' :: rest => inComment rest
  | cs => cs
where
  /-- Drop the rest of a comment and go on. -/
  inComment : List Char → List Char
    | [] => []
    | '\n' :: rest => skipLines rest
    | '\r' :: '\n' :: rest => skipLines rest
    | c :: rest => if isPlain c then inComment rest else c :: rest

/-- The number that hexadecimal digits denote. -/
def hexNumber? (digits : List Char) : Option Nat :=
  if digits.all (isDigitOf 16) then some (valueOfDigits 16 digits) else none

/-- The character with a number. -/
def scalarChar? (n : Nat) : Option Char := if n.isValidChar then some (Char.ofNat n) else none

/-- Read an escape after its backslash. -/
def escape? : List Char → Option (Char × List Char)
  | 'b' :: rest => some (Char.ofNat 8, rest)
  | 't' :: rest => some ('\t', rest)
  | 'n' :: rest => some ('\n', rest)
  | 'f' :: rest => some (Char.ofNat 12, rest)
  | 'r' :: rest => some ('\r', rest)
  | '"' :: rest => some ('"', rest)
  | '\\' :: rest => some ('\\', rest)
  | 'u' :: a :: b :: c :: d :: rest => do
      let c ← scalarChar? (← hexNumber? [a, b, c, d])
      some (c, rest)
  | 'U' :: a :: b :: c :: d :: e :: f :: g :: h :: rest => do
      let c ← scalarChar? (← hexNumber? [a, b, c, d, e, f, g, h])
      some (c, rest)
  | _ => none

/-- Read a quoted string after its opening quote. -/
def basicTail : Nat → List Char → Option (List Char × List Char)
  | 0, _ => none
  | fuel + 1, cs =>
      match cs with
      | '"' :: rest => some ([], rest)
      | '\\' :: rest => do
          let (c, rest) ← escape? rest
          let (text, rest) ← basicTail fuel rest
          some (c :: text, rest)
      | c :: rest =>
          if isPlain c then (basicTail fuel rest).map fun (text, rest) => (c :: text, rest)
          else none
      | [] => none

/-- Read a literal string after its opening quote. -/
def literalTail : List Char → Option (List Char × List Char)
  | '\'' :: rest => some ([], rest)
  | c :: rest =>
      if isPlain c then (literalTail rest).map fun (text, rest) => (c :: text, rest) else none
  | [] => none

/-- Drop the end of line that follows the opening quotes of a string of several lines. -/
def skipFirstLineEnd (cs : List Char) : List Char := (lineEnd? cs).getD cs

/-- Read a string of several lines up to its closing quotes; two quotes may stand right before them.
-/
def linesTail (quote : Char) (escapes : Bool) : Nat → List Char → Option (List Char × List Char)
  | 0, _ => none
  | fuel + 1, cs =>
      let quotes := cs.takeWhile (· = quote)
      let afterQuotes := cs.dropWhile (· = quote)
      if 3 ≤ quotes.length then
        let own := min (quotes.length - 3) 2
        some (quotes.take own, cs.drop (own + 3))
      else if 0 < quotes.length then
        (linesTail quote escapes fuel afterQuotes).map fun (text, rest) => (quotes ++ text, rest)
      else match lineEnd? cs, cs with
        | some rest, _ =>
            (linesTail quote escapes fuel rest).map fun (text, rest) => ('\n' :: text, rest)
        | none, '\\' :: rest =>
            if escapes then
              match lineEnd? (skipBlanks rest) with
              | some rest => linesTail quote escapes fuel (skipBlankLines rest)
              | none => do
                  let (c, rest) ← escape? rest
                  let (text, rest) ← linesTail quote escapes fuel rest
                  some (c :: text, rest)
            else (linesTail quote escapes fuel rest).map fun (text, rest) => ('\\' :: text, rest)
        | none, c :: rest =>
            if isPlain c then
              (linesTail quote escapes fuel rest).map fun (text, rest) => (c :: text, rest)
            else none
        | none, [] => none
where
  /-- Drop blanks and ends of lines. -/
  skipBlankLines : List Char → List Char
    | ' ' :: rest | '\t' :: rest | '\n' :: rest => skipBlankLines rest
    | '\r' :: '\n' :: rest => skipBlankLines rest
    | cs => cs

/-- Read a string. -/
def stringTail? (cs : List Char) : Option (String × List Char) :=
  let read : Option (List Char × List Char) := match cs with
    | '"' :: '"' :: '"' :: rest => linesTail '"' true (rest.length + 1) (skipFirstLineEnd rest)
    | '\'' :: '\'' :: '\'' :: rest => linesTail '\'' false (rest.length + 1) (skipFirstLineEnd rest)
    | '"' :: rest => basicTail (rest.length + 1) rest
    | '\'' :: rest => literalTail rest
    | _ => none
  read.map fun (text, rest) => (String.ofList text, rest)

/-- Whether a character can stand in a name without quotes. -/
def isBareChar (c : Char) : Bool := c.isAlphanum || c = '-' || c = '_'

/-- Read one part of a name. -/
def namePart? (cs : List Char) : Option (String × List Char) :=
  match cs with
  | '"' :: rest =>
      (basicTail (rest.length + 1) rest).map fun (text, rest) => (String.ofList text, rest)
  | '\'' :: rest => (literalTail rest).map fun (text, rest) => (String.ofList text, rest)
  | cs =>
      let word := cs.takeWhile isBareChar
      if word.isEmpty then none else some (String.ofList word, cs.dropWhile isBareChar)

/-- Read a name: parts with points between them. The result is the path to the last part, the last
part, and what follows the name and its blanks. -/
def nameTail? : Nat → List Char → Option ((List String × String) × List Char)
  | 0, _ => none
  | fuel + 1, cs => do
      let (part, rest) ← namePart? (skipBlanks cs)
      match skipBlanks rest with
      | '.' :: rest => do
          let ((path, last), rest) ← nameTail? fuel rest
          some ((part :: path, last), rest)
      | rest => some (([], part), rest)

/-- The number of arrays and tables that may be nested in one another, and of the parts of a name.
-/
def nestingLimit : Nat := 79

/-- Read a name, which has a bounded number of parts. -/
def name? (cs : List Char) : Option ((List String × String) × List Char) := do
  let ((path, last), rest) ← nameTail? (cs.length + 1) cs
  if path.length + 1 ≤ nestingLimit then some ((path, last), rest) else none

/-- Read the items of an array after its opening bracket. -/
def itemsTail (value : List Char → Option (Toml × List Char)) :
    Nat → List Char → Option (List Toml × List Char)
  | 0, _ => none
  | fuel + 1, cs =>
      match skipLines cs with
      | ']' :: rest => some ([], rest)
      | cs => do
          let (item, rest) ← value cs
          match skipLines rest with
          | ',' :: rest =>
              (itemsTail value fuel rest).map fun (items, rest) => (item :: items, rest)
          | ']' :: rest => some ([item], rest)
          | _ => none

/-- Read the members of an inline table that holds at least one, after its opening brace. -/
def membersTail (value : List Char → Option (Toml × List Char)) :
    Nat → Members → List Char → Option (Members × List Char)
  | 0, _, _ => none
  | fuel + 1, members, cs => do
      let ((path, key), rest) ← name? cs
      let '=' :: rest := rest | none
      let (item, rest) ← value (skipBlanks rest)
      let (_, members) ← assign path key item .inline members
      match skipBlanks rest with
      | ',' :: rest => membersTail value fuel members rest
      | '\x7d' :: rest => some (members, rest)
      | _ => none

/-- Drop a word that the text must start with. -/
def dropWord? : List Char → List Char → Option (List Char)
  | [], cs => some cs
  | w :: word, c :: cs => if w = c then dropWord? word cs else none
  | _ :: _, [] => none

/-- Read a value in which at most `depth` arrays and tables are nested in one another. -/
def valueTail : Nat → List Char → Option (Toml × List Char)
  | depth, cs =>
      match cs with
      | '"' :: _ | '\'' :: _ => (stringTail? cs).map fun (text, rest) => (.str text, rest)
      | 't' :: rest => (dropWord? ['r', 'u', 'e'] rest).map (.bool true, ·)
      | 'f' :: rest => (dropWord? ['a', 'l', 's', 'e'] rest).map (.bool false, ·)
      | '[' :: rest =>
          match depth with
          | 0 => none
          | depth + 1 =>
              (itemsTail (valueTail depth) (rest.length + 1) rest).map fun (items, rest) =>
                (.arr items, rest)
      | '\x7b' :: rest =>
          match depth with
          | 0 => none
          | depth + 1 =>
              match skipBlanks rest with
              | '\x7d' :: rest => some (.table .inline [], rest)
              | rest =>
                  (membersTail (valueTail depth) (rest.length + 1) [] rest).map
                    fun (members, rest) => (.table .inline members, rest)
      | cs =>
          match momentTail? cs with
          | some (value, rest) => some (.moment value, rest)
          | none => (numberTail? cs).map fun (text, rest) => (.number (String.ofList text), rest)

/-- A document while it is read: its table, and the path to the table that names now go to. -/
structure Draft where
  members : Members := []
  current : List String := []

/-- Apply a change to the whole document. -/
def Draft.change (draft : Draft) (change : Change) (current : List String) : Option Draft := do
  let (_, members) ← change .header draft.members
  some { members, current }

/-- Read a header after its first bracket. -/
def headerTail? (draft : Draft) (cs : List Char) : Option (Draft × List Char) :=
  match cs with
  | '[' :: rest => do
      let ((path, key), ']' :: ']' :: rest) ← name? rest | none
      let draft ← draft.change (openElement path key) (path ++ [key])
      some (draft, rest)
  | cs => do
      let ((path, key), ']' :: rest) ← name? cs | none
      let draft ← draft.change (openTable path key) (path ++ [key])
      some (draft, rest)

/-- Read a name with its value. -/
def memberTail? (draft : Draft) (cs : List Char) : Option (Draft × List Char) := do
  let ((path, key), '=' :: rest) ← name? cs | none
  let (value, rest) ← valueTail nestingLimit (skipBlanks rest)
  let draft ← draft.change (changeAt false (assign path key value) draft.current) draft.current
  some (draft, rest)

/-- Read the lines of a document. -/
def documentLines (draft : Draft) : Nat → List Char → Option Members
  | 0, _ => none
  | fuel + 1, cs =>
      match skipLines cs with
      | [] => some draft.members
      | '[' :: rest => do
          let (draft, rest) ← headerTail? draft rest
          documentLines draft fuel (← restOfLine? rest)
      | rest => do
          let (draft, rest) ← memberTail? draft rest
          documentLines draft fuel (← restOfLine? rest)

/-- Read a document. -/
def parse? (text : String) : Option Members :=
  let cs := match text.toList with
    | c :: cs => if c.toNat = 0xFEFF then cs else c :: cs
    | [] => []
  documentLines {} (cs.length + 1) cs

end KernelFront.Toml
