import KernelFront.Ty.Basic

/-! # Printing types

A type is written the way a user writes it in a signature: scalar names with their width, a star
for a pointer, one colon per array axis, a number for an array of fixed size. Types that a user
cannot write print as a word with what they hold in parentheses.
-/

namespace KernelFront

/-- One colon per axis; the last axis of an inner-contiguous array is marked `::1`. -/
def Layout.axes (layout : Layout) : List String :=
  match layout.ndim with
  | 0 => []
  | n + 1 => List.replicate n ":" ++ [if layout.innerContig then "::1" else ":"]

namespace Ty

mutual

/-- A type as it is printed. -/
def text : Ty → String
  | .bool => "bool"
  | .int true bits => "int" ++ toString bits
  | .int false bits => "uint" ++ toString bits
  | .float bits => "float" ++ toString bits
  | .complex bits => "complex" ++ toString (bits * 2)
  | .pointer base => text base ++ "*"
  | .array elem layout => text elem ++ "[" ++ Text.joinWith ", " layout.axes ++ "]"
  | .carray base size => text base ++ "[" ++ toString size ++ "]"
  | .tuple size _ => "tuple(" ++ toString size ++ ")"
  | .list size _ => "list(" ++ toString size ++ ")"
  | .range => "range"
  | .slice => "slice"
  | .ellipsis => "ellipsis"
  | .newAxis => "newaxis"
  | .object => "object"
  | .void => "void"
  | .module name _ => "module(" ++ name ++ ")"
  | .moduleAttribute owner attr _ => "attribute(" ++ owner ++ "." ++ attr ++ ")"
  | .dtype base => "dtype(" ++ text base ++ ")"
  | .builtin name => "builtin(" ++ name ++ ")"
  | .global name => "global(" ++ name ++ ")"
  | .function args ret => "(" ++ Text.joinWith ", " (textAll args) ++ ") -> " ++ text ret

/-- Each type as it is printed. -/
def textAll : List Ty → List String
  | [] => []
  | t :: ts => text t :: textAll ts

end

/-- Types separated by commas. -/
def commaText (types : List Ty) : String := Text.joinWith ", " (textAll types)

end Ty

/-- A function type as it is printed. -/
def FunctionType.text (signature : FunctionType) : String :=
  "(" ++ Ty.commaText signature.args ++ ") -> " ++ signature.ret.text

/-- The characters that a linker symbol may hold. -/
def isSymbolChar (c : Char) : Bool := c.isAlphanum || c = '_'

/-- The linker symbol of a function specialized to argument types: the name and the printed types,
with every character of a type that a symbol may not hold replaced by an underscore. -/
def mangle (name : String) (args : List Ty) : String :=
  let part (arg : Ty) : List Char :=
    '_' :: arg.text.toList.map fun c => if isSymbolChar c then c else '_'
  name ++ "_" ++ String.ofList (args.flatMap part)

end KernelFront
