import KernelFront.Span
import KernelFront.Ty.Promotion

/-! # Type errors

A function that cannot be compiled is refused with a cause and the place of the offending node.
Constructs that can still be handled by the host at run time are no errors.
-/

namespace KernelFront

/-- What callers decide on: whether to reject the function, to fall back to the interpreter, or to
report a compiler bug. -/
inductive ErrorKind where
  /-- A construct outside the compilable subset. -/
  | unsupported
  /-- A construct applied to the wrong types. -/
  | type
  /-- A name read before it is bound. -/
  | unboundName
  /-- An invariant of the passes was violated. -/
  | internal
  deriving DecidableEq, Repr

/-- Why a function was refused. -/
inductive Cause where
  | unsupported (construct : String)
  /-- Two types have no common type. -/
  | promotion (left right : Ty)
  /-- The number of unpacked elements is not the number of targets. -/
  | unpackArity (found expected : Nat)
  /-- Only arrays of fixed size, lists and tuples unpack. -/
  | unpackType (ty : Ty)
  | builtinArity (name expected : String) (found : Nat)
  | unsupportedBuiltin (name : String)
  | arityMismatch (callee : String) (expected found : Nat)
  | invalidAttribute (ty : Ty) (attr : String)
  | readOnlyAttribute (attr : String)
  | invalidIndex (ty : Ty) (index : Option Ty)
  | tooManyIndices (ndim found : Nat)
  | notIterable (ty : Ty)
  | unboundLocal (name : String)
  | internal (message : String)
  deriving DecidableEq, Repr

/-- A refusal with the place it refers to. -/
structure TypeError where
  cause : Cause
  span : Span
  deriving DecidableEq, Repr

namespace Cause

/-- The kind of a cause. -/
def kind : Cause → ErrorKind
  | .unsupported _ => .unsupported
  | .unboundLocal _ => .unboundName
  | .internal _ => .internal
  | _ => .type

/-- The wording of a cause. -/
def message : Cause → String
  | .unsupported construct => "unsupported: " ++ construct
  | .promotion left right => "cannot promote types `" ++ left.text ++ "` and `" ++ right.text ++ "`"
  | .unpackArity found expected =>
      "too many/few values to unpack, got (" ++ toString found ++ ", " ++ toString expected ++ ")"
  | .unpackType ty =>
      "cannot unpack a value of type `" ++ ty.text ++ "`; only C arrays, lists and tuples unpack"
  | .builtinArity name expected found =>
      "builtin `" ++ name ++ "` takes " ++ expected ++ " arguments, found " ++ toString found
  | .unsupportedBuiltin name => "unsupported call to builtin `" ++ name ++ "`"
  | .arityMismatch callee expected found =>
      "`" ++ callee ++ "` takes " ++ toString expected ++ " arguments, found " ++ toString found
  | .invalidAttribute ty attr => "type `" ++ ty.text ++ "` has no attribute `" ++ attr ++ "`"
  | .readOnlyAttribute attr => "cannot assign to read-only attribute `" ++ attr ++ "`"
  | .invalidIndex ty (some index) => "cannot index `" ++ ty.text ++ "` with `" ++ index.text ++ "`"
  | .invalidIndex ty none => "cannot index `" ++ ty.text ++ "`"
  | .tooManyIndices ndim found =>
      "too many indices: array has " ++ toString ndim ++ " dimensions, " ++ toString found ++
        " indexed"
  | .notIterable ty => "cannot iterate over `" ++ ty.text ++ "`"
  | .unboundLocal name => "local variable `" ++ name ++ "` referenced before assignment"
  | .internal message => "internal compiler error: " ++ message

/-- The code under which a cause is documented. -/
def code : Cause → String
  | .unsupported _ => "E0001"
  | .promotion _ _ => "E0002"
  | .unpackArity _ _ => "E0003"
  | .unpackType _ => "E0004"
  | .builtinArity _ _ _ => "E0005"
  | .unsupportedBuiltin _ => "E0006"
  | .arityMismatch _ _ _ => "E0007"
  | .invalidAttribute _ _ => "E0008"
  | .readOnlyAttribute _ => "E0009"
  | .invalidIndex _ _ => "E0010"
  | .tooManyIndices _ _ => "E0011"
  | .notIterable _ => "E0012"
  | .unboundLocal _ => "E0013"
  | .internal _ => "E0999"

/-- The short text under the offending place. -/
def label : Cause → String
  | .unsupported _ => "not supported in compiled code"
  | .promotion left right => "`" ++ left.text ++ "` meets `" ++ right.text ++ "` here"
  | .unpackArity found _ => "this value has " ++ toString found ++ " elements"
  | .unpackType ty | .invalidIndex ty _ | .notIterable ty => "this has type `" ++ ty.text ++ "`"
  | .builtinArity _ _ found | .arityMismatch _ _ found =>
      "called with " ++ toString found ++ " arguments"
  | .unsupportedBuiltin name => "`" ++ name ++ "` cannot be compiled"
  | .invalidAttribute _ attr => "no attribute `" ++ attr ++ "`"
  | .readOnlyAttribute _ => "assigned here"
  | .tooManyIndices _ found => toString found ++ " axes indexed"
  | .unboundLocal _ => "read before any assignment"
  | .internal _ => "while compiling this"

/-- What may be done about a cause, if there is something to suggest. -/
def help : Cause → Option String
  | .unpackArity found expected =>
      if expected < found then some ("add " ++ toString (found - expected) ++ " more target(s)")
      else some ("remove " ++ toString (expected - found) ++ " target(s)")
  | .readOnlyAttribute _ => some "array metadata and complex components are read-only"
  | .unboundLocal name => some ("assign `" ++ name ++ "` before this point on every path")
  | .internal _ => some "this is a compiler bug"
  | _ => none

end Cause

namespace TypeError

/-- The kind of an error. -/
def kind (e : TypeError) : ErrorKind := e.cause.kind

/-- The wording of an error. -/
def message (e : TypeError) : String := e.cause.message

end TypeError

end KernelFront
