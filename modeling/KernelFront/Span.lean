/-! # Source spans

Every node of a tree carries the half-open byte range of the source text it came from. Nodes that
a pass creates without a counterpart in the source carry the empty range at the beginning.
-/

namespace KernelFront

/-- A half-open byte range of a source text. -/
structure Span where
  start : Nat := 0
  stop : Nat := 0
  deriving DecidableEq, Repr, Inhabited

end KernelFront
