import KernelFront.Error
import KernelFront.Tree.Basic

/-! # Conversions

A value meets a place of another type through an explicit conversion. A conversion to the type of a
binding that may still change is deferred, and resolved once that type is settled.
-/

namespace KernelFront.Expr

/-- The variable an expression is bound to, symbols looked up in a table. -/
def boundVar? (table : SymbolTable) (e : Expr) : Option Variable :=
  match e.binding with
  | some (.symbol id) => table.get? id
  | some (.value var) => some var
  | none => none

/-- The type of an expression: that of its binding or, without a binding, the type fixed on it. -/
def typeIn? (table : SymbolTable) (e : Expr) : Option Ty :=
  match e.boundVar? table with
  | some var => var.ty
  | none => e.ty

/-- The value of an expression that is bound to a constant. -/
def constantIn? (table : SymbolTable) (e : Expr) : Option Constant := do
  let var ← e.boundVar? table
  if var.isConstant then var.constantValue else none

/-- Convert an expression to a type, unless it already has it. -/
def convert (table : SymbolTable) (target : Ty) (e : Expr) : Expr :=
  if e.typeIn? table = some target then e
  else .coercion (.annotated e.span target) e target

/-- Turn a deferred conversion into a conversion to the type that its binding has; every other
expression stays as it is. -/
def resolveDeferred (table : SymbolTable) : Expr → Except TypeError Expr
  | .deferredCoercion note node slot =>
      match table.typeOf? slot with
      | some target => .ok (node.convert table target)
      | none => .error ⟨.internal "deferred coercion to an unresolved slot", note.span⟩
  | e => .ok e

end KernelFront.Expr
