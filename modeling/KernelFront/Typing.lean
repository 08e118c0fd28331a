import KernelFront.Conversion
import KernelFront.Dialogue
import KernelFront.Tree.Traversal

/-! # Fixing types

After inference every binding is final. Each expression now receives the type of its binding, and
deferred conversions become conversions to the type that their binding has in the end, so that later
passes read types off the tree.
-/

namespace KernelFront

/-- Fix the type of an expression whose parts are fixed. -/
def Expr.fixType (table : SymbolTable) (e : Expr) : Except TypeError Expr := do
  let e ← e.resolveDeferred table
  match e.typeIn? table with
  | some ty => pure (e.withTy ty)
  | none => throw ⟨.internal "node left without a type", e.span⟩

/-- Fix the types of an expression and its parts. -/
def Expr.fixTypes (table : SymbolTable) (e : Expr) : Except TypeError Expr :=
  e.rebuildM (Expr.fixType table)

/-- Fix the types of all expressions of a body. -/
def Stmt.fixTypes (table : SymbolTable) (body : List Stmt) : Except TypeError (List Stmt) :=
  Stmt.rebuildBodyM (Expr.fixType table) (fun stmt => pure [stmt]) body

namespace FunctionDef

/-- Fix the types of all expressions of a function: its body, then the value it returns after a
failure. -/
def fixTypes (table : SymbolTable) (func : FunctionDef) : Except TypeError FunctionDef := do
  let body ← Stmt.fixTypes table func.body
  match func.errorReturn with
  | some ⟨some value⟩ =>
      let value ← value.fixTypes table
      pure { func with body, errorReturn := some ⟨some value⟩ }
  | _ => pure { func with body }

/-- Fix the types of a function and report it. -/
def typed (table : SymbolTable) (func : FunctionDef) : Pass FunctionDef := do
  let func ← Pass.ofExcept (func.fixTypes table)
  Pass.report .debug ("[setter] " ++ func.name ++ ": types set")
  pure func

end FunctionDef

end KernelFront
