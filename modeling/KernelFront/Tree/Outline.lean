import KernelFront.Tree.Printer
import KernelFront.Tree.Traversal

/-! # Outlines

The outline of a function lists every statement and every expression in the order in which passes
reach them: a statement, its own expressions from the outside in, then its nested bodies.
-/

namespace KernelFront

namespace Expr

/-- The name of an expression form. -/
def formName : Expr → String
  | .name .. => "Name"
  | .const .. => "Const"
  | .binOp .. => "BinOp"
  | .boolOp .. => "BoolOp"
  | .unaryOp .. => "UnaryOp"
  | .compare .. => "Compare"
  | .call .. => "Call"
  | .attribute .. => "Attribute"
  | .subscript .. => "Subscript"
  | .index .. => "Index"
  | .slice .. => "Slice"
  | .extSlice .. => "ExtSlice"
  | .ellipsis .. => "Ellipsis"
  | .tuple .. => "Tuple"
  | .list .. => "List"
  | .dict .. => "Dict"
  | .coercion .. => "Coercion"
  | .deferredCoercion .. => "DeferredCoercion"
  | .range .. => "Range"
  | .nativeCall .. => "NativeCall"
  | .objectCall .. => "ObjectCall"
  | .arrayAttribute .. => "ArrayAttribute"
  | .dataPointer .. => "DataPointer"
  | .objectTemp .. => "ObjectTemp"
  | .temp .. => "Temp"

/-- An expression in an outline: its form, its access and its text. -/
def outlineText (e : Expr) : String :=
  let access := match e.access with
    | .load => "Load"
    | .store => "Store"
  e.formName ++ " " ++ access ++ " " ++ e.text

end Expr

/-- A statement in an outline, without its bodies: its form, then its expressions. -/
def Stmt.outlineTexts (stmt : Stmt) : List String :=
  stmt.formName :: stmt.nodes.map Expr.outlineText

/-- The outline of a function. -/
def FunctionDef.outline (func : FunctionDef) : List String :=
  func.statements.flatMap Stmt.outlineTexts

end KernelFront
