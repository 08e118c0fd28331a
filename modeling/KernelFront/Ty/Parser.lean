import KernelFront.Text.Space
import KernelFront.Ty.Printer

/-! # Reading types

A type name is a scalar name, followed by any number of stars, or by one pair of brackets and any
number of stars after it. Brackets hold a number, for an array of fixed size, or one colon per
axis, for an array; the last axis may be `::1`, which makes the array contiguous. White space is
allowed around every part.

The text is read from its end, where the outermost constructor stands.
-/

namespace KernelFront

/-- Why a text is not a type name. -/
inductive ParseReason where
  | unknownName
  | badPointee
  | badElement
  | unclosed
  | badAxes
  deriving DecidableEq, Repr

/-- The wording of a reason. -/
def ParseReason.message : ParseReason → String
  | .unknownName => "unknown type name"
  | .badPointee => "bad pointee type"
  | .badElement => "bad element type"
  | .unclosed => "missing closing `]`"
  | .badAxes => "array axes must be `:` or a trailing `::1`"

/-- A text that is not a type name. -/
structure ParseError where
  /-- The text without white space around it. -/
  input : String
  reason : ParseReason
  deriving DecidableEq, Repr

/-- The wording of an error. -/
def ParseError.message (e : ParseError) : String :=
  "invalid type `" ++ e.input ++ "`: " ++ e.reason.message

namespace Ty

/-- The scalar types by name. -/
def ofName? : String → Option Ty
  | "bool" => some .bool
  | "int8" | "char" => some int8
  | "int16" => some int16
  | "int32" | "int" => some int32
  | "int64" | "intp" => some int64
  | "uint8" => some uint8
  | "uint16" => some uint16
  | "uint32" => some uint32
  | "uint64" => some uint64
  | "float32" | "float" => some float32
  | "float64" | "double" => some float64
  | "complex64" => some complex64
  | "complex128" => some complex128
  | "object" => some .object
  | "void" => some .void
  | _ => none

/-- Read a scalar name with stars after it from its reversed characters. -/
def elementOfReversed : List Char → Option Ty
  | [] => none
  | c :: rest =>
      if Text.isSpace c then elementOfReversed rest
      else if c = '*' then (elementOfReversed rest).map .pointer
      else ofName? (String.ofList (Text.trimStart (c :: rest).reverse))

/-- Read a decimal numeral of a machine word: an optional plus sign, then digits. -/
def wordOfDigits? (cs : List Char) : Option Nat :=
  let digits := match cs with
    | '+' :: rest => rest
    | rest => rest
  if digits.isEmpty || !digits.all Char.isDigit then none
  else
    let n := digits.foldl (fun n c => 10 * n + (c.toNat - '0'.toNat)) 0
    if n < 0x10000000000000000 then some n else none

/-- Read the axes of an array type: colons, the last of which may be `::1`. -/
def axesOfTexts? : List (List Char) → Option Layout
  | [] => none
  | [axis] =>
      if axis = [':'] then some ⟨1, false, false⟩
      else if axis = [':', ':', '1'] then some ⟨1, true, true⟩
      else none
  | axis :: axes =>
      if axis = [':'] then
        (axesOfTexts? axes).map fun layout => { layout with ndim := layout.ndim + 1 }
      else none

/-- Read a text that ends in neither white space nor a star. -/
def ofBracketed (cs : List Char) : Except ParseReason Ty :=
  match cs.dropWhile (· ≠ '[') with
  | [] =>
      match ofName? (String.ofList (Text.trimStart cs)) with
      | some t => .ok t
      | none => .error .unknownName
  | _ :: after =>
      if after.getLast? ≠ some ']' then .error .unclosed
      else
        match elementOfReversed (cs.takeWhile (· ≠ '[')).reverse with
        | none => .error .badElement
        | some elem =>
            match wordOfDigits? (Text.trim after.dropLast) with
            | some size => .ok (.carray elem size)
            | none =>
                match axesOfTexts? ((Text.splitAt ',' after.dropLast).map Text.trim) with
                | some layout => .ok (.array elem layout)
                | none => .error .badAxes

/-- Read a type from its reversed characters. -/
def ofReversed : List Char → Except ParseReason Ty
  | [] => .error .unknownName
  | c :: rest =>
      if Text.isSpace c then ofReversed rest
      else if c = '*' then
        match ofReversed rest with
        | .ok base => .ok (.pointer base)
        | .error _ => .error .badPointee
      else ofBracketed (c :: rest).reverse

/-- Read a type name. -/
def parse (s : String) : Except ParseError Ty :=
  match ofReversed s.toList.reverse with
  | .ok t => .ok t
  | .error reason => .error ⟨Text.trimmed s, reason⟩

end Ty

end KernelFront
