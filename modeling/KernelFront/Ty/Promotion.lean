import KernelFront.Ty.Printer

/-! # Promotion

Two values meet in an operation at the least type that both convert to. Numeric scalars widen, an
object absorbs everything but `void`, and tuples and lists of equal size forget the constants they
record; `directed` lists these rules with the deciding side on the left. Arrays promote element by
element and keep a contiguity only if both have it, an array meets a numeric scalar in its elements,
and arrays of fixed size promote if their sizes agree.
-/

namespace KernelFront

/-- Two types without a common type. -/
structure PromoteError where
  left : Ty
  right : Ty
  deriving DecidableEq, Repr

/-- The wording of a failed promotion. -/
def PromoteError.message (e : PromoteError) : String :=
  "cannot promote types " ++ e.left.text ++ " and " ++ e.right.text

/-- The layout of an elementwise result: the larger rank, and only the contiguity that both have. -/
def Layout.meet (a b : Layout) : Layout :=
  ⟨max a.ndim b.ndim, a.cContig && b.cContig, a.innerContig && b.innerContig⟩

namespace Ty

/-- The promotion rules that do not look inside a type, the deciding side first. -/
def directed : Ty → Ty → Option Ty
  | .object, b => if b = .void then none else some .object
  | .bool, b => if b.isNumeric then some b else none
  | .int s m, .int t n => some (.int (s || t) (max m n))
  | .int _ _, .float n => some (.float n)
  | .float m, .float n => some (.float (max m n))
  | .complex m, .int _ _ => some (.complex m)
  | .complex m, .float n => some (.complex (max m n))
  | .complex m, .complex n => some (.complex (max m n))
  | .pointer t, .int _ _ => some (.pointer t)
  | .tuple m _, .tuple n _ => if m = n then some (.tuple m none) else none
  | .list m _, .list n _ => if m = n then some (.list m none) else none
  | _, _ => none

/-- The promotion of two types that are not promoted part by part. -/
def promoteFlat (a b : Ty) : Option Ty :=
  if a = b then some a else (directed a b).orElse fun _ => directed b a

/-- The promotion of a type with a numeric scalar. -/
def promoteScalar (scalar : Ty) : Ty → Option Ty
  | .array elem layout => (promoteScalar scalar elem).map (.array · layout)
  | t => promoteFlat t scalar

/-- The least type that two types convert to. -/
def promote? : Ty → Ty → Option Ty
  | .array x l, .array y m => (promote? x y).map (.array · (l.meet m))
  | .carray x m, .carray y n => if m = n then (promote? x y).map (.carray · m) else none
  | .array x l, b =>
      if b.isNumeric then promoteScalar b (.array x l) else promoteFlat (.array x l) b
  | a, .array y m =>
      if a.isNumeric then promoteScalar a (.array y m) else promoteFlat a (.array y m)
  | a, b => promoteFlat a b

/-- The least type that two types convert to, or the pair that has none. -/
def promote (a b : Ty) : Except PromoteError Ty :=
  match promote? a b with
  | some t => .ok t
  | none => .error ⟨a, b⟩

end Ty

end KernelFront
