import KernelFront.Proofs.Traversal

/-! # The numbers of a tree

Every number that the parts of a tree hold: the doubles and integers of constants, wherever these
stand, and the widths, sizes, positions and indices of types, spans, bindings and temporaries, each
with the width of its field. The tree format carries a tree whose numbers are in the ranges of their
fields and whose doubles are finite.
-/

namespace KernelFront

/-- A number that a tree holds. -/
inductive Scalar where
  /-- A component of a constant. -/
  | double (value : Binary64)
  /-- An integer of a constant. -/
  | int (value : Int)
  /-- A number in an unsigned field of so many bits. -/
  | nat (bits value : Nat)
  deriving DecidableEq, Repr

namespace Scalar

/-- A number is in the range of its field. -/
def InRange : Scalar → Prop
  | .double _ => True
  | .int value => -0x8000000000000000 ≤ value ∧ value ≤ 0x7FFFFFFFFFFFFFFF
  | .nat bits value => value < (1 <<< bits : Nat)

/-- No infinity and no NaN. -/
def IsFinite : Scalar → Prop
  | .double value => value.isFinite
  | _ => True

instance : DecidablePred InRange := fun
  | .double _ => inferInstanceAs (Decidable True)
  | .int _ => inferInstanceAs (Decidable (_ ∧ _))
  | .nat _ _ => inferInstanceAs (Decidable (_ < _))

instance : DecidablePred IsFinite := fun
  | .double value => inferInstanceAs (Decidable (value.isFinite = true))
  | .int _ => inferInstanceAs (Decidable True)
  | .nat _ _ => inferInstanceAs (Decidable True)

/-- A number that the format carries. -/
def Fits (s : Scalar) : Prop := s.InRange ∧ s.IsFinite

end Scalar

namespace Constant

mutual

/-- The numbers of a constant. -/
def scalars : Constant → List Scalar
  | .int value => [.int value]
  | .float value => [.double value]
  | .complex re im => [.double re, .double im]
  | .tuple items => scalarsAll items
  | _ => []

/-- The numbers of several constants. -/
def scalarsAll : List Constant → List Scalar
  | [] => []
  | c :: cs => scalars c ++ scalarsAll cs

end

end Constant

namespace Ty

/-- The numbers of the constants that a type records. -/
def recordedScalars (value : Option (List Constant)) : List Scalar :=
  value.toList.flatMap Constant.scalarsAll

mutual

/-- The numbers of a type. -/
def scalars : Ty → List Scalar
  | .int _ bits | .float bits | .complex bits => [.nat 8 bits]
  | .pointer base | .dtype base => scalars base
  | .array elem layout => .nat 64 layout.ndim :: scalars elem
  | .carray base size => .nat 64 size :: scalars base
  | .tuple size value | .list size value => .nat 64 size :: recordedScalars value
  | .function args ret => scalars ret ++ scalarsAll args
  | _ => []

/-- The numbers of several types. -/
def scalarsAll : List Ty → List Scalar
  | [] => []
  | t :: ts => scalars t ++ scalarsAll ts

end

end Ty

/-- The numbers of a function type. -/
def FunctionType.scalars (s : FunctionType) : List Scalar := s.ret.scalars ++ Ty.scalarsAll s.args

/-- The number of a binding's identity. -/
def SymbolId.scalars (id : SymbolId) : List Scalar := [.nat 32 id.index]

/-- The number of a temporary. -/
def TempId.scalars (id : TempId) : List Scalar := [.nat 32 id.index]

/-- The ends of a span. -/
def Span.scalars (span : Span) : List Scalar := [.nat 32 span.start, .nat 32 span.stop]

/-- The numbers of a binding. -/
def Variable.scalars (var : Variable) : List Scalar :=
  var.ty.toList.flatMap Ty.scalars ++ var.constantValue.toList.flatMap Constant.scalars

/-- The numbers of what inference attached. -/
def Binding.scalars : Binding → List Scalar
  | .symbol id => id.scalars
  | .value var => var.scalars

/-- The numbers of a note. -/
def Note.scalars (n : Note) : List Scalar :=
  n.span.scalars ++ n.binding.toList.flatMap Binding.scalars ++ n.ty.toList.flatMap Ty.scalars

/-- The numbers that an expression holds besides its note and its parts. -/
def Expr.formScalars : Expr → List Scalar
  | .const _ value => value.scalars
  | .coercion _ _ target => target.scalars
  | .deferredCoercion _ _ slot => slot.scalars
  | .nativeCall _ _ signature _ => signature.scalars
  | .objectTemp _ _ id => id.toList.flatMap TempId.scalars
  | .temp _ id _ => id.scalars
  | _ => []

/-- The numbers of an expression at every depth. -/
def Expr.scalars (e : Expr) : List Scalar :=
  e.nodes.flatMap fun node => node.note.scalars ++ node.formScalars

/-- The numbers of a statement, its bodies apart. -/
def Stmt.scalars (stmt : Stmt) : List Scalar :=
  stmt.span.scalars ++ stmt.exprs.flatMap Expr.scalars

/-- The numbers of a temporary's declaration. -/
def TempDecl.scalars (decl : TempDecl) : List Scalar := decl.id.scalars ++ decl.ty.scalars

namespace FunctionDef

/-- The expression that a function returns with an exception pending, if there is one. -/
def failureExpr (func : FunctionDef) : Option Expr := func.errorReturn.bind ErrorReturn.value

/-- The numbers of a function. -/
def scalars (func : FunctionDef) : List Scalar :=
  func.span.scalars ++ func.statements.flatMap Stmt.scalars ++
    func.failureExpr.toList.flatMap Expr.scalars ++ func.temps.flatMap TempDecl.scalars

end FunctionDef

/-! ## Parts -/

theorem Constant.scalarsAll_eq (cs : List Constant) : scalarsAll cs = cs.flatMap scalars := by
  induction cs with
  | nil => rfl
  | cons c cs ih => simp only [scalarsAll, List.flatMap_cons, ih]

theorem Ty.scalarsAll_eq (ts : List Ty) : scalarsAll ts = ts.flatMap scalars := by
  induction ts with
  | nil => rfl
  | cons t ts ih => simp only [scalarsAll, List.flatMap_cons, ih]

namespace Expr

theorem scalars_eq (e : Expr) :
    e.scalars = e.note.scalars ++ e.formScalars ++ e.children.flatMap scalars := by
  have hparts : ∀ es : List Expr,
      (nodesAll es).flatMap (fun node => node.note.scalars ++ node.formScalars) =
        es.flatMap scalars := by
    intro es
    induction es with
    | nil => rfl
    | cons e es ih => simp only [nodesAll, List.flatMap_append, List.flatMap_cons, ih, scalars]
  simp only [scalars, nodes_eq e, List.flatMap_cons, hparts]

end Expr

-- Many proofs unfold these functions, so their equations are made here, once for all of them.
attribute [local simp] Constant.scalars Constant.scalarsAll Ty.scalars Ty.scalarsAll

end KernelFront
