import KernelFront.Ty.Basic

/-! # Kinds of types

Every type has exactly one kind. Scalars, and arrays by their elements, also have a numeric kind.
-/

namespace KernelFront

/-- The mutually exclusive kinds of types. -/
inductive TypeKind where
  | scalar | pointer | array | carray | tuple | list | range | slice | ellipsis | newAxis
  | object | void | module | moduleAttribute | dtype | builtin | global | function
  deriving DecidableEq, Repr

/-- The numeric categories of a scalar. -/
inductive NumericKind where
  | bool | int | float | complex
  deriving DecidableEq, Repr

namespace Ty

/-- The kind of a type. -/
def kind : Ty → TypeKind
  | .bool | .int _ _ | .float _ | .complex _ => .scalar
  | .pointer _ => .pointer
  | .array _ _ => .array
  | .carray _ _ => .carray
  | .tuple _ _ => .tuple
  | .list _ _ => .list
  | .range => .range
  | .slice => .slice
  | .ellipsis => .ellipsis
  | .newAxis => .newAxis
  | .object => .object
  | .void => .void
  | .module _ _ => .module
  | .moduleAttribute _ _ _ => .moduleAttribute
  | .dtype _ => .dtype
  | .builtin _ => .builtin
  | .global _ => .global
  | .function _ _ => .function

/-- The numeric category of a scalar type. -/
def scalarKind : Ty → Option NumericKind
  | .bool => some .bool
  | .int _ _ => some .int
  | .float _ => some .float
  | .complex _ => some .complex
  | _ => none

/-- The numeric category of a scalar, or of the elements of an array. -/
def numericKind : Ty → Option NumericKind
  | .array elem _ => scalarKind elem
  | t => scalarKind t

/-- Whether a type can serve as an index: an integer or a truth value. -/
def isIntLike : Ty → Bool
  | .bool | .int _ _ => true
  | _ => false

/-- Whether this is the array module of the host. -/
def isNumpyModule : Ty → Bool
  | .module _ isNumpy => isNumpy
  | _ => false

/-- Whether this is an attribute of the array module of the host. -/
def isNumpyAttribute : Ty → Bool
  | .moduleAttribute _ _ isNumpy => isNumpy
  | _ => false

end Ty

end KernelFront
