import KernelFront.Ty.Basic

/-! # Options

The types that inference gives to what the source leaves open.
-/

namespace KernelFront

/-- The types of constructs whose type the source does not state. -/
structure Options where
  /-- The type of loop counters, range bounds and constant indices. -/
  indexType : Ty := .int64
  /-- The type that the builtin `int` converts to. -/
  intBuiltin : Ty := .int32
  /-- The type that the builtin `float` converts to. -/
  floatBuiltin : Ty := .float32
  deriving DecidableEq, Repr, Inhabited

end KernelFront
