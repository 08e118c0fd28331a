import KernelFront.Conversion
import KernelFront.Dialogue
import KernelFront.Host.Function
import KernelFront.Temporaries
import KernelFront.Tree.Traversal

/-! # Boxed values

The last pass prepares a function for a backend that knows nothing of the host. Every expression
that makes a new boxed value is given a temporary that owns it; tuples of boxed values and print
statements become calls of the host; an array is subscripted through the pointer to its elements;
and the function learns what it returns after a failure.
-/

namespace KernelFront.Boxing

/-- A step of this pass: it makes temporaries and may refuse. -/
abbrev Step := StateT (List TempDecl) (Except TypeError)

/-- The integer that marks a failed call of a function with an integer or complex result. -/
def failureMark : Int := 0xbadbadbad

/-- What a function returns while an exception is pending. -/
def failureValue (ret : Ty) (span : Span) : Option Expr :=
  let constant (value : Constant) (ty : Ty) : Option Expr :=
    some (.const (.annotated span ty) value)
  match ret with
  | .object | .array _ _ => constant .null .object
  | .float _ => constant (.float .nan) ret
  | .int _ _ | .complex _ => constant (.int failureMark) ret
  | _ => none

/-- Give a new boxed value a temporary that owns it. The expression keeps its type. -/
def own (node : Expr) : Step Expr := do
  let id ← allocate .object .object
  pure (.objectTemp (.annotated node.span (node.ty.getD .object)) node (some id))

/-- The call that packs boxed values into a tuple. -/
def packTuple (span : Span) (elts : List Expr) : Expr :=
  let count : Expr := .const (.annotated span .intp) (.int elts.length)
  Host.Function.tuplePack.call (count :: elts) span

/-- Subscript an array through the pointer to its elements. The metadata of an array cannot be
written. -/
def throughPointer (note : Note) (value selector : Expr) (access : Access) :
    Except TypeError Expr :=
  match value, value.ty with
  | .arrayAttribute _ attr _ _, _ =>
      if access = .store then .error ⟨.readOnlyAttribute attr.name, note.span⟩
      else .ok (.subscript note value selector access)
  | array, some (.array elem _) =>
      .ok (.subscript note (.dataPointer (.annotated array.span (.pointer elem)) array) selector
        access)
  | value, _ => .ok (.subscript note value selector access)

/-- Prepare an expression whose parts are prepared. -/
def boxExpr (table : SymbolTable) : Expr → Step Expr
  | .deferredCoercion note node slot =>
      StateT.lift ((Expr.deferredCoercion note node slot).resolveDeferred table)
  | .tuple note elts .load =>
      if elts.all fun e => e.ty = some .object then own (packTuple note.span elts)
      else own (.tuple note elts .load)
  | .dict note keys values => own (.dict note keys values)
  | .objectCall note func args keywords => own (.objectCall note func args keywords)
  | .nativeCall note symbol signature args =>
      if signature.ret = .object then own (.nativeCall note symbol signature args)
      else pure (.nativeCall note symbol signature args)
  | .subscript note value selector access =>
      StateT.lift (throughPointer note value selector access)
  | e => pure e

/-- The statement that prints a boxed value. -/
def printCall (span : Span) (value : Expr) : Stmt :=
  let stdout : Expr := .const (.annotated span (.pointer .void)) .stdout
  let flags : Expr := .const (.annotated span .int32) (.int Host.printRaw)
  .expr span (Host.Function.objectPrint.call [value, stdout, flags] span)

/-- Prepare a statement whose parts are prepared. Printing goes to the standard output only. -/
def boxStmt : Stmt → Step (List Stmt)
  | .print _ _ (some dest) _ =>
      throw ⟨.unsupported "print to a stream other than stdout", dest.span⟩
  | .print span values none _ => pure (values.map (printCall span))
  | stmt => pure [stmt]

/-- Prepare a body. -/
def boxBody (table : SymbolTable) (body : List Stmt) : Step (List Stmt) :=
  Stmt.rebuildBodyM (boxExpr table) boxStmt body

end Boxing

namespace FunctionDef

/-- The function with its boxed values owned and its value after a failure set. -/
def box (table : SymbolTable) (signature : FunctionType) (func : FunctionDef) :
    Except TypeError FunctionDef := do
  let (body, temps) ← (Boxing.boxBody table func.body).run func.temps
  pure { func with
    body, temps
    errorReturn := some ⟨Boxing.failureValue signature.ret func.span⟩ }

/-- Prepare a function for the backend and report it. -/
def boxed (table : SymbolTable) (signature : FunctionType) (func : FunctionDef) :
    Pass FunctionDef := do
  let func ← Pass.ofExcept (func.box table signature)
  let objects := func.temps.countP fun temp => temp.kind = .object
  Pass.report .debug
    ("[specialize] " ++ func.name ++ ": " ++ toString objects ++ " object temporaries")
  pure func

end FunctionDef

end KernelFront
