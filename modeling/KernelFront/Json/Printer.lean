import KernelFront.Json.Value
import KernelFront.Text.Pieces
import KernelFront.Text.Quoted

/-! # Printing JSON

A value on one line, or with one member or item to a line and two spaces for each level.
-/

namespace KernelFront.Json

/-- One character as it stands in a JSON string. -/
def stringChar (c : Char) : List Char :=
  if c = '"' then ['\\', '"']
  else if c = '\\' then ['\\', '\\']
  else if c = '\n' then ['\\', 'n']
  else if c = '\r' then ['\\', 'r']
  else if c = '\t' then ['\\', 't']
  else if c.toNat = 8 then ['\\', 'b']
  else if c.toNat = 12 then ['\\', 'f']
  else if c.toNat < 0x20 then ['\\', 'u'] ++ Text.hexPadded 4 c.toNat
  else [c]

/-- A JSON string literal. -/
def stringText (s : String) : String :=
  String.ofList ('"' :: s.toList.flatMap stringChar ++ ['"'])

mutual

/-- A value on one line. -/
def compact : Json → String
  | .null => "null"
  | .bool b => if b then "true" else "false"
  | .int n => toString n
  | .float x => x.text
  | .str s => stringText s
  | .arr items => "[" ++ Text.joinWith "," (compactAll items) ++ "]"
  | .obj members => "\x7b" ++ Text.joinWith "," (compactMembers members) ++ "\x7d"

/-- Each value on one line. -/
def compactAll : List Json → List String
  | [] => []
  | v :: vs => compact v :: compactAll vs

/-- Each member on one line. -/
def compactMembers : List (String × Json) → List String
  | [] => []
  | (key, v) :: members => (stringText key ++ ":" ++ compact v) :: compactMembers members

end

/-- A newline and the indentation of a level. -/
def newline (level : Nat) : String := "\n" ++ String.ofList (List.replicate (2 * level) ' ')

mutual

/-- A value over several lines. -/
def pretty (level : Nat) : Json → String
  | .arr [] => "[]"
  | .arr items =>
      "[" ++ newline (level + 1) ++
        Text.joinWith ("," ++ newline (level + 1)) (prettyAll (level + 1) items) ++
        newline level ++ "]"
  | .obj [] => "\x7b\x7d"
  | .obj members =>
      "\x7b" ++ newline (level + 1) ++
        Text.joinWith ("," ++ newline (level + 1)) (prettyMembers (level + 1) members) ++
        newline level ++ "\x7d"
  | .null => "null"
  | .bool b => if b then "true" else "false"
  | .int n => toString n
  | .float x => x.text
  | .str s => stringText s

/-- Each value over several lines. -/
def prettyAll (level : Nat) : List Json → List String
  | [] => []
  | v :: vs => pretty level v :: prettyAll level vs

/-- Each member over several lines. -/
def prettyMembers (level : Nat) : List (String × Json) → List String
  | [] => []
  | (key, v) :: members => (stringText key ++ ": " ++ pretty level v) :: prettyMembers level members

end

end KernelFront.Json
