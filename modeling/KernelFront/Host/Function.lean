import KernelFront.Tree.Basic

/-! # Functions of the host

Compiled code calls a few functions of the host's runtime by their symbols: one packs objects into a
tuple, one prints an object, one reads an attribute by name.
-/

namespace KernelFront.Host

/-- A function of the host's runtime. -/
inductive Function where
  /-- A new tuple from a count and as many objects. -/
  | tuplePack
  /-- Print an object to a stream. -/
  | objectPrint
  /-- A new reference to an attribute of an object. -/
  | getAttrString
  deriving DecidableEq, Repr

/-- The flag that asks for an object's plain text instead of its quoted form. -/
def printRaw : Int := 1

namespace Function

/-- The symbol of a function. -/
def symbol : Function → String
  | .tuplePack => "PyTuple_Pack"
  | .objectPrint => "PyObject_Print"
  | .getAttrString => "PyObject_GetAttrString"

/-- The type of a function when it is called with `count` arguments; only packing depends on it. -/
def signature (count : Nat) : Function → FunctionType
  | .tuplePack => ⟨.intp :: List.replicate (count - 1) .object, .object⟩
  | .objectPrint => ⟨[.object, .pointer .void, .int32], .int32⟩
  | .getAttrString => ⟨[.object, .cString], .object⟩

/-- A call of a function; its type is known to every pass. -/
def call (function : Function) (args : List Expr) (span : Span) : Expr :=
  let signature := function.signature args.length
  .nativeCall (.annotated span signature.ret) function.symbol signature args

end Function

end KernelFront.Host
