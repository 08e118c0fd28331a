import KernelFront.Inference.Stmt
import KernelFront.Ty.Printer

/-! # Inference of functions

A function is inferred for the types of its arguments. Its result is the common type of all values
it returns and of the declared result type, and `void` if there are none.
-/

namespace KernelFront

/-- A function whose expressions are bound, with the bindings and the type it was given. -/
structure Inferred where
  signature : FunctionType
  symbols : SymbolTable
  func : FunctionDef
  deriving Repr, Inhabited

namespace Inference

/-- Settle the result type. -/
def settleResult (declared : Option Ty) (span : Span) : Infer Ty := do
  let ty ← match (← get).resultType?, declared with
    | none, some declared => pure declared
    | none, none => pure .void
    | some found, some declared =>
        if found = declared then pure found else apply fun _ => join declared found span
    | some found, none => pure found
  modify fun scope => scope.setType Scope.resultSlot ty
  pure ty

/-- Infer a function for a signature. -/
def inferFunction (setting : Setting) (func : FunctionDef) (signature : Signature) :
    Pass Inferred := do
  if func.args.length ≠ signature.args.length then
    throw ⟨.arityMismatch func.name func.args.length signature.args.length, func.span⟩
  else do
    let infer : Infer (List Stmt × Ty) := do
      let body ← inferBody setting func.body
      let ret ← settleResult signature.ret func.span
      pure (body, ret)
    let ((body, ret), scope) ← infer.run (Scope.ofFunction func signature.args)
    let signature : FunctionType := ⟨signature.args, ret⟩
    Pass.report .debug ("[infer] " ++ func.name ++ ": " ++ signature.text)
    pure { signature, symbols := scope.symbols, func := { func with body } }

end Inference

end KernelFront
