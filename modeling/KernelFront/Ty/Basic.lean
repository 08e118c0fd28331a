import KernelFront.Constant

/-! # Types

The types that the compiler tells apart form a closed set: numeric scalars, native aggregates,
aggregates of the source language, dynamic values, and the kinds of names that never become values
of their own. Types are compared structurally; a tuple type may record the constants it holds.
-/

namespace KernelFront

/-- The shape of a multidimensional array, its element type apart. -/
structure Layout where
  /-- The number of dimensions. -/
  ndim : Nat
  /-- The whole buffer is in row-major order. -/
  cContig : Bool
  /-- The innermost dimension is contiguous. -/
  innerContig : Bool
  deriving DecidableEq, Repr, Inhabited

/-- A type. -/
inductive Ty where
  | bool
  | int (signed : Bool) (bits : Nat)
  | float (bits : Nat)
  /-- A complex number; `bits` is the width of each component. -/
  | complex (bits : Nat)
  | pointer (base : Ty)
  | array (elem : Ty) (layout : Layout)
  /-- An array of fixed size, such as the shape of an array. -/
  | carray (base : Ty) (size : Nat)
  | tuple (size : Nat) (value : Option (List Constant))
  | list (size : Nat) (value : Option (List Constant))
  | range
  | slice
  | ellipsis
  | newAxis
  /-- A boxed, reference-counted value of the host. -/
  | object
  | void
  | module (name : String) (isNumpy : Bool)
  | moduleAttribute (module attr : String) (isNumpy : Bool)
  | dtype (base : Ty)
  | builtin (name : String)
  | global (name : String)
  | function (args : List Ty) (ret : Ty)
  deriving Repr, Inhabited

namespace Ty

mutual

/-- Structural equality as a test. -/
def same : Ty → Ty → Bool
  | .bool, .bool | .range, .range | .slice, .slice | .ellipsis, .ellipsis
  | .newAxis, .newAxis | .object, .object | .void, .void => true
  | .int s b, .int s' b' => s == s' && b == b'
  | .float b, .float b' => b == b'
  | .complex b, .complex b' => b == b'
  | .pointer t, .pointer u => same t u
  | .array t l, .array u m => same t u && l == m
  | .carray t n, .carray u m => same t u && n == m
  | .tuple n v, .tuple m w => n == m && v == w
  | .list n v, .list m w => n == m && v == w
  | .module a p, .module b q => a == b && p == q
  | .moduleAttribute a x p, .moduleAttribute b y q => a == b && x == y && p == q
  | .dtype t, .dtype u => same t u
  | .builtin a, .builtin b => a == b
  | .global a, .global b => a == b
  | .function as r, .function bs q => sameAll as bs && same r q
  | _, _ => false

/-- Structural equality of lists as a test. -/
def sameAll : List Ty → List Ty → Bool
  | [], [] => true
  | a :: as, b :: bs => same a b && sameAll as bs
  | _, _ => false

end

mutual

theorem same_iff : ∀ a b : Ty, same a b = true ↔ a = b
  | .bool, b | .range, b | .slice, b | .ellipsis, b | .newAxis, b | .object, b | .void, b => by
      cases b <;> simp [same]
  | .int _ _, b | .float _, b | .complex _, b | .tuple _ _, b | .list _ _, b | .module _ _, b
  | .builtin _, b | .global _, b => by cases b <;> simp [same]
  | .moduleAttribute _ _ _, b => by cases b <;> simp [same, and_assoc]
  | .pointer t, b => by
      cases b
      case pointer u => simpa [same] using same_iff t u
      all_goals simp [same]
  | .dtype t, b => by
      cases b
      case dtype u => simpa [same] using same_iff t u
      all_goals simp [same]
  | .array t l, b => by
      cases b
      case array u m => simp [same, same_iff t u]
      all_goals simp [same]
  | .carray t n, b => by
      cases b
      case carray u m => simp [same, same_iff t u]
      all_goals simp [same]
  | .function as r, b => by
      cases b
      case function bs q => simp [same, sameAll_iff as bs, same_iff r q]
      all_goals simp [same]

theorem sameAll_iff : ∀ as bs : List Ty, sameAll as bs = true ↔ as = bs
  | [], bs => by cases bs <;> simp [sameAll]
  | a :: as, [] => by simp [sameAll]
  | a :: as, b :: bs => by simp [sameAll, same_iff a b, sameAll_iff as bs]

end

instance : DecidableEq Ty := fun a b => decidable_of_iff _ (same_iff a b)

/-- A signed integer of eight bits. -/
def int8 : Ty := .int true 8
/-- A signed integer of sixteen bits. -/
def int16 : Ty := .int true 16
/-- A signed integer of thirty-two bits. -/
def int32 : Ty := .int true 32
/-- A signed integer of sixty-four bits. -/
def int64 : Ty := .int true 64
/-- An unsigned integer of eight bits. -/
def uint8 : Ty := .int false 8
/-- An unsigned integer of sixteen bits. -/
def uint16 : Ty := .int false 16
/-- An unsigned integer of thirty-two bits. -/
def uint32 : Ty := .int false 32
/-- An unsigned integer of sixty-four bits. -/
def uint64 : Ty := .int false 64
/-- A floating-point number of thirty-two bits. -/
def float32 : Ty := .float 32
/-- A floating-point number of sixty-four bits. -/
def float64 : Ty := .float 64
/-- A complex number of two thirty-two bit components. -/
def complex64 : Ty := .complex 32
/-- A complex number of two sixty-four bit components. -/
def complex128 : Ty := .complex 64
/-- The index type of the platform. -/
def intp : Ty := int64
/-- The type of string literals. -/
def cString : Ty := .pointer int8

/-- An array without any contiguous dimension. -/
def strided (elem : Ty) (ndim : Nat) : Ty := .array elem ⟨ndim, false, false⟩

/-- An array in row-major order. -/
def contiguous (elem : Ty) (ndim : Nat) : Ty := .array elem ⟨ndim, true, true⟩

/-- Whether this is an integer type. -/
def isInt : Ty → Bool
  | .int _ _ => true
  | _ => false

/-- Whether this is a numeric scalar: a truth value, integer, floating-point or complex number. -/
def isNumeric : Ty → Bool
  | .bool | .int _ _ | .float _ | .complex _ => true
  | _ => false

/-- Whether this is an array type. -/
def isArray : Ty → Bool
  | .array _ _ => true
  | _ => false

/-- The type one level down: pointee, element, or the type a dtype stands for. -/
def baseType : Ty → Option Ty
  | .pointer t | .dtype t | .carray t _ | .array t _ => some t
  | _ => none

/-- The type of the components of a complex number. -/
def complexComponent : Ty → Option Ty
  | .complex bits => some (.float bits)
  | _ => none

/-- The number of dimensions of an array, zero for every other type. -/
def ndim : Ty → Nat
  | .array _ layout => layout.ndim
  | _ => 0

/-- The number of elements of an aggregate of fixed size. -/
def size : Ty → Option Nat
  | .carray _ n | .tuple n _ | .list n _ => some n
  | _ => none

/-- The constants that a tuple or list type records. -/
def constantElements : Ty → Option (List Constant)
  | .tuple _ value | .list _ value => value
  | _ => none

/-- The type of a host value known at compile time. -/
def ofConstant : Constant → Ty
  | .bool _ => .bool
  | .int _ => int64
  | .float _ => float64
  | .complex _ _ => complex128
  | .str _ => cString
  | .nothing | .null => .object
  | .ellipsis => .ellipsis
  | .stdout => .pointer .void
  | .tuple items => .tuple items.length (some items)

end Ty

/-- The parameter types and the result type of a function. -/
structure FunctionType where
  args : List Ty
  ret : Ty
  deriving DecidableEq, Repr, Inhabited

end KernelFront
