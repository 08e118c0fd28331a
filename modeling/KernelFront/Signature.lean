import KernelFront.Ty.Basic

/-! # Signatures

A function is compiled for the types of its arguments and, if the caller declares one, for a result
type. What comes out is an entry point: a symbol that native code can call directly, with the types
it was finally given.
-/

namespace KernelFront

/-- What a function is compiled for. -/
structure Signature where
  args : List Ty
  /-- The declared result type, if there is one. -/
  ret : Option Ty := none
  deriving DecidableEq, Repr, Inhabited

/-- A native symbol and its type. -/
structure EntryPoint where
  symbol : String
  signature : FunctionType
  deriving DecidableEq, Repr, Inhabited

/-- How a function that is not compiled together with its caller is to be called. -/
inductive Resolution where
  /-- Directly, through its entry point. -/
  | native (entry : EntryPoint)
  /-- Through the call protocol of the host, with boxed arguments. -/
  | host
  deriving DecidableEq, Repr, Inhabited

end KernelFront
