import KernelFront.Conversion
import KernelFront.Dialogue
import KernelFront.Temporaries
import KernelFront.Tree.Traversal
import KernelFront.Ty.Printer

/-! # Counted loops

Every loop becomes a loop over a counted range. A loop over a range counts in its own target. A loop
over an array of one dimension counts in a temporary and begins its body by storing the element that
the counter selects; an iterable that is not a plain name is first stored in a temporary. Loops over
anything else are refused. Inner loops are treated before the loops around them.
-/

namespace KernelFront.Loops

/-- A pass that makes temporaries. -/
abbrev Lowering := StateT (List TempDecl) Pass

/-- A use of a temporary. -/
def temp (id : TempId) (access : Access) (ty : Ty) (span : Span) : Expr :=
  .temp (.annotated span ty) id access

/-- An integer constant. -/
def int (value : Int) (ty : Ty) (span : Span) : Expr := .const (.annotated span ty) (.int value)

/-- The length of an array: the first entry of its shape. -/
def arrayLength (array : Expr) (span : Span) : Expr :=
  let shape := .arrayAttribute (.annotated span (.carray .intp 1)) .shape array .load
  .subscript (.annotated span .intp) shape (int 0 .intp span) .load

/-- The positions of an array, counted from zero in the index type. -/
def positions (table : SymbolTable) (indexType : Ty) (array : Expr) (span : Span) : Expr :=
  .range (.annotated span .range) (int 0 indexType span)
    ((arrayLength array span).convert table indexType) (int 1 indexType span)

/-- The statement that stores the element at the counter in the target of a loop. -/
def storeElement (table : SymbolTable) (target array counter : Expr) (elem : Ty) (span : Span) :
    Stmt :=
  let element := Expr.subscript (.annotated span elem) array counter .load
  .assign span [target] (element.convert table (target.ty.getD .object))

/-- Store an iterable in a temporary unless it is a plain name. The result is the statement that
does so, if one is needed, and the expression to use in its place. -/
def evaluateOnce (iter : Expr) (ty : Ty) : Lowering (List Stmt × Expr) :=
  if iter.asName.isSome then pure ([], iter)
  else do
    let id ← allocate ty .array
    let span := iter.span
    pure ([.assign span [temp id .store ty span] iter], temp id .load ty span)

/-- Turn a loop whose bodies are lowered into a loop over a counted range. -/
def lowerLoop (table : SymbolTable) (indexType : Ty) (span : Span) (target iter : Expr)
    (body orelse : List Stmt) : Lowering (List Stmt) := do
  if target.asName.isNone then
    throw ⟨.unsupported "for loop target that is not a plain name", target.span⟩
  else
    let iterTy := iter.ty.getD .void
    let lowered ← match iterTy with
      | .range => pure [.forIn span target iter body orelse (some (target.withAccess .load))]
      | .array elem ⟨1, _, _⟩ => do
          let (setup, array) ← evaluateOnce iter iterTy
          let id ← allocate indexType .index
          let counter := temp id .load indexType span
          let body := storeElement table target array counter elem span :: body
          let iter := positions table indexType array span
          pure (setup ++ [.forIn span target iter body orelse (some counter)])
      | ty => throw ⟨.unsupported ("loop pattern: iteration over `" ++ ty.text ++ "`"), iter.span⟩
    StateT.lift (Pass.report .debug ("[iterable] lowered loop over " ++ iterTy.text))
    pure lowered

/-- Lower a statement whose bodies are lowered. -/
def lowerStmt (table : SymbolTable) (indexType : Ty) : Stmt → Lowering (List Stmt)
  | .forIn span target iter body orelse _ =>
      lowerLoop table indexType span target iter body orelse
  | stmt => pure [stmt]

/-- Lower all loops of a body. -/
def lowerBody (table : SymbolTable) (indexType : Ty) (body : List Stmt) : Lowering (List Stmt) :=
  Stmt.rebuildBodyM pure (lowerStmt table indexType) body

end Loops

/-- The function with all its loops counted. -/
def FunctionDef.counted (table : SymbolTable) (indexType : Ty) (func : FunctionDef) :
    Pass FunctionDef := do
  let (body, temps) ← (Loops.lowerBody table indexType func.body).run func.temps
  Pass.report .debug
    ("[iterable] " ++ func.name ++ ": " ++ toString temps.length ++ " temporaries")
  pure { func with body, temps }

end KernelFront
