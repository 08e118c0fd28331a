import KernelFront.Inference.Scope

/-! # Rules for operators and displays

The rules of this module build an expression from parts that were visited: operators convert their
operands to one type, truth values are asked for where a test is made, and a tuple of constants is
itself a constant.
-/

namespace KernelFront.Inference

/-- An arithmetic operation at the common type of its operands. -/
def typeBinOp (span : Span) (left : Expr) (op : BinOp) (right : Expr) (table : SymbolTable) :
    Except TypeError Expr := do
  let leftTy ← typeOf table left
  let rightTy ← typeOf table right
  let ty ← join leftTy rightTy span
  pure (.binOp (.typed span ty) (left.convert table ty) op (right.convert table ty))

/-- A short-circuiting operation on truth values. -/
def typeBoolOp (span : Span) (op : BoolOp) (values : List Expr) (table : SymbolTable) : Expr :=
  .boolOp (.typed span .bool) op (values.map (Expr.convert table .bool))

/-- Negation asks for a truth value; the other operators keep the type of their operand. -/
def typeUnaryOp (span : Span) (op : UnaryOp) (operand : Expr) (table : SymbolTable) :
    Except TypeError Expr :=
  match op with
  | .not => .ok (.unaryOp (.typed span .bool) .not (operand.convert table .bool))
  | op => do
      let ty ← typeOf table operand
      pure (.unaryOp (.typed span ty) op operand)

/-- A comparison of two values at their common type. -/
def typeCompare (span : Span) (left : Expr) (op : CmpOp) (right : Expr) (table : SymbolTable) :
    Except TypeError Expr := do
  let leftTy ← typeOf table left
  let rightTy ← typeOf table right
  let note := Note.typed span .bool
  if leftTy = rightTy then pure (.compare note left [op] [right])
  else do
    let ty ← join leftTy rightTy span
    pure (.compare note (left.convert table ty) [op] [right.convert table ty])

/-- The variable of a tuple: a constant if the tuple is read and all its elements are constants. -/
def tupleVariable (table : SymbolTable) (elts : List Expr) (access : Access) : Variable :=
  let folded := if access = .load then elts.mapM (Expr.constantIn? table) else none
  match folded with
  | some items => .constant (.tuple items) (.tuple elts.length (some items))
  | none => .typed (.tuple elts.length none)

/-- A tuple. -/
def typeTuple (span : Span) (elts : List Expr) (access : Access) (table : SymbolTable) : Expr :=
  .tuple { span, binding := some (.value (tupleVariable table elts access)) } elts access

/-- A list. -/
def typeList (span : Span) (elts : List Expr) (access : Access) : Expr :=
  .list (.typed span (.list elts.length none)) elts access

/-- A dictionary, which holds boxed keys and values. -/
def typeDict (span : Span) (keys values : List Expr) (table : SymbolTable) : Expr :=
  .dict (.typed span .object) (keys.map (Expr.convert table .object))
    (values.map (Expr.convert table .object))

/-- A selector that is a single expression; `None` selects a new axis. -/
def typeIndex (span : Span) (value : Expr) (table : SymbolTable) : Except TypeError Expr := do
  let ty ← if isNothing table value then pure .newAxis else typeOf table value
  pure (.index (.typed span ty) value)

end KernelFront.Inference
