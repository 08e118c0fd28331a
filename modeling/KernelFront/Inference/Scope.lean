import KernelFront.Conversion
import KernelFront.Dialogue
import KernelFront.Host.Namespace
import KernelFront.Options
import KernelFront.Tree.Locals

/-! # The scope of a function

Inference walks a function once, in source order, and keeps a scope: the symbol table so far and the
entry points of the compiled functions among the free names. The first binding of the table holds
the result type. Parameters, other locals and the host's `None` follow in this order; a free name is
bound when it is first seen.
-/

namespace KernelFront.Inference

/-- What inference takes as given. -/
structure Setting where
  names : Host.Namespace
  options : Options := {}

/-- What inference has found out so far. -/
structure Scope where
  symbols : SymbolTable
  /-- The entry points of the free names that are compiled functions. -/
  natives : List (String × EntryPoint) := []
  deriving Repr, Inhabited

namespace Scope

/-- The binding of the result type. -/
def resultSlot : SymbolId := ⟨0⟩

/-- The scope that holds only the binding of the result type. -/
def initial : Scope := { symbols := (SymbolTable.ensureReturnSlot {}).2 }

/-- Add a binding. -/
def declare (scope : Scope) (var : Variable) : Scope :=
  { scope with symbols := (scope.symbols.insert var).2 }

/-- The scope in which the body of a function is read: parameters have the types of the arguments,
other locals have no type yet. -/
def ofFunction (func : FunctionDef) (args : List Ty) : Scope :=
  let parameters := (func.args.zip args).map fun (name, ty) => Variable.localNamed name (some ty)
  let locals := func.localNames.map fun name => Variable.localNamed name none
  let nothing : Variable := { Variable.constant .nothing .object with name := some "None" }
  (parameters ++ locals ++ [nothing]).foldl declare initial

/-- Give a binding a type. -/
def setType (scope : Scope) (id : SymbolId) (ty : Ty) : Scope :=
  { scope with symbols := scope.symbols.setType id (some ty) }

/-- The type of the result so far. -/
def resultType? (scope : Scope) : Option Ty := scope.symbols.typeOf? resultSlot

end Scope

/-- Inference: a pass that keeps a scope. -/
abbrev Infer := StateT Scope Pass

/-- Refuse the function. -/
def refuse {α : Type} (cause : Cause) (span : Span) : Infer α :=
  throw ⟨cause, span⟩

/-- Apply a rule that reads the bindings made so far. -/
def apply {α : Type} (rule : SymbolTable → Except TypeError α) : Infer α := do
  match rule (← get).symbols with
  | .ok result => pure result
  | .error e => throw e

/-- Report a message for those who debug the compiler. -/
def report (text : String) : Infer Unit :=
  StateT.lift (Pass.report .debug text)

/-- The type of an expression that was visited. -/
def typeOf (table : SymbolTable) (e : Expr) : Except TypeError Ty :=
  match e.typeIn? table with
  | some ty => .ok ty
  | none => .error ⟨.internal "expression has no inferred type", e.span⟩

/-- The least type that two types convert to. -/
def join (left right : Ty) (span : Span) : Except TypeError Ty :=
  match left.promote right with
  | .ok ty => .ok ty
  | .error e => .error ⟨.promotion e.left e.right, span⟩

/-- A constant of a given type. -/
def constantOf (value : Constant) (ty : Ty) (span : Span) : Expr :=
  .const { span, binding := some (.value (.constant value ty)) } value

/-- A literal; its type follows from its value. -/
def literal (value : Constant) (span : Span) : Expr :=
  constantOf value (.ofConstant value) span

/-- Whether an expression is bound to the host's `None`. -/
def isNothing (table : SymbolTable) (e : Expr) : Bool :=
  e.constantIn? table = some .nothing

variable (setting : Setting)

/-- An integer constant of the index type. -/
def indexConstant (value : Int) (span : Span) : Expr :=
  constantOf (.int value) setting.options.indexType span

/-- Bind a free name as the namespace says. -/
def bindFree (name : String) : Infer SymbolId := do
  let ty : Ty ← match setting.names.lookup name with
    | .builtin => pure (.builtin name)
    | .module name isNumpy => pure (.module name isNumpy)
    | .native entry => do
        modify fun scope => { scope with natives := (name, entry) :: scope.natives }
        pure (.function entry.signature.args entry.signature.ret)
    | .global => pure (.global name)
  report ("[infer] free name `" ++ name ++ "` is " ++ ty.text)
  let (id, symbols) := (← get).symbols.insert (.globalNamed name ty)
  modify fun scope => { scope with symbols }
  pure id

/-- Visit a name. A local may not be read before it has a type. -/
def visitName (name : String) (access : Access) (span : Span) : Infer Expr := do
  let table := (← get).symbols
  let id ← match table.lookup name with
    | some id =>
        let unassigned := (table.get? id).any fun var => var.isLocal && var.ty.isNone
        if unassigned && access = .load then refuse (.unboundLocal name) span
        else pure id
    | none => bindFree setting name
  pure (.name { span, binding := some (.symbol id) } name access)

end KernelFront.Inference
