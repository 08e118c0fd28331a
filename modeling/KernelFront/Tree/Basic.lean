import KernelFront.Span
import KernelFront.Symbols

/-! # Function trees

A function enters the compiler as the tree that a parser built and leaves it with every expression
typed and with the lowered forms spliced in: conversions, native and host calls, counted ranges,
temporaries. One type of tree serves all passes. Every expression carries a note with its place in
the source and with what the passes found out about it.
-/

namespace KernelFront

/-- Arithmetic and bitwise operators. -/
inductive BinOp where
  | add | sub | mult | div | floorDiv | mod | pow | lShift | rShift | bitOr | bitXor | bitAnd
  deriving DecidableEq, Repr

/-- Short-circuiting operators. -/
inductive BoolOp where
  | and | or
  deriving DecidableEq, Repr

/-- Operators with one operand. -/
inductive UnaryOp where
  | not | neg | pos | invert
  deriving DecidableEq, Repr

/-- Comparison operators. -/
inductive CmpOp where
  | eq | notEq | lt | ltE | gt | gtE | is | isNot | isIn | notIn
  deriving DecidableEq, Repr

/-- Whether an expression is read or written. -/
inductive Access where
  | load | store
  deriving DecidableEq, Repr

/-- Array metadata that attribute access reaches. -/
inductive ArrayAttr where
  | data | shape | strides | ndim
  deriving DecidableEq, Repr

namespace ArrayAttr

/-- The attribute's name. -/
def name : ArrayAttr → String
  | .data => "data"
  | .shape => "shape"
  | .strides => "strides"
  | .ndim => "ndim"

/-- The attribute of a name. -/
def ofName? : String → Option ArrayAttr
  | "data" => some .data
  | "shape" => some .shape
  | "strides" => some .strides
  | "ndim" => some .ndim
  | _ => none

end ArrayAttr

/-- The number of a temporary, unique within its function. -/
structure TempId where
  index : Nat
  deriving DecidableEq, Repr, Inhabited

/-- What a temporary is for. -/
inductive TempKind where
  /-- The counter of a loop. -/
  | index
  /-- An iterable, evaluated once before its loop. -/
  | array
  /-- An owned reference to a boxed value, released on every exit path. -/
  | object
  deriving DecidableEq, Repr

/-- A temporary that a pass introduced. -/
structure TempDecl where
  id : TempId
  ty : Ty
  kind : TempKind
  deriving DecidableEq, Repr

/-- What inference attaches to an expression. -/
inductive Binding where
  /-- An entry of the symbol table. -/
  | symbol (id : SymbolId)
  /-- A binding of this expression alone. -/
  | value (var : Variable)
  deriving DecidableEq, Repr

/-- What is known about an expression besides its form. -/
structure Note where
  span : Span := {}
  /-- Set by inference. -/
  binding : Option Binding := none
  /-- Set when types are fixed. -/
  ty : Option Ty := none
  deriving DecidableEq, Repr, Inhabited

/-- An expression. -/
inductive Expr where
  | name (note : Note) (id : String) (access : Access)
  | const (note : Note) (value : Constant)
  | binOp (note : Note) (left : Expr) (op : BinOp) (right : Expr)
  | boolOp (note : Note) (op : BoolOp) (values : List Expr)
  | unaryOp (note : Note) (op : UnaryOp) (operand : Expr)
  | compare (note : Note) (left : Expr) (ops : List CmpOp) (comparators : List Expr)
  | call (note : Note) (func : Expr) (args : List Expr) (keywords : List (String × Expr))
  | attribute (note : Note) (value : Expr) (attr : String) (access : Access)
  | subscript (note : Note) (value selector : Expr) (access : Access)
  /-- A subscript selector that is a single expression. -/
  | index (note : Note) (value : Expr)
  | slice (note : Note) (lower upper step : Option Expr)
  /-- The selectors of a multidimensional subscript, one per axis. -/
  | extSlice (note : Note) (dims : List Expr)
  | ellipsis (note : Note)
  | tuple (note : Note) (elts : List Expr) (access : Access)
  | list (note : Note) (elts : List Expr) (access : Access)
  | dict (note : Note) (keys values : List Expr)
  /-- Convert `node` to `target`. -/
  | coercion (note : Note) (node : Expr) (target : Ty)
  /-- Convert `node` to the type that the binding `slot` finally has. -/
  | deferredCoercion (note : Note) (node : Expr) (slot : SymbolId)
  /-- A counted range with every bound explicit. -/
  | range (note : Note) (start stop step : Expr)
  /-- A direct call of a native symbol. -/
  | nativeCall (note : Note) (symbol : String) (signature : FunctionType) (args : List Expr)
  /-- A call through the host's dynamic protocol. -/
  | objectCall (note : Note) (func : Expr) (args : List Expr) (keywords : List (String × Expr))
  | arrayAttribute (note : Note) (attr : ArrayAttr) (array : Expr) (access : Access)
  /-- The element pointer of an array, as the base of a subscript. -/
  | dataPointer (note : Note) (array : Expr)
  /-- A boxed value that the function owns until it exits. -/
  | objectTemp (note : Note) (node : Expr) (id : Option TempId)
  | temp (note : Note) (id : TempId) (access : Access)
  deriving Repr

instance : Inhabited Expr := ⟨.ellipsis {}⟩

namespace Expr

/-- The note of an expression. -/
def note : Expr → Note
  | .name n _ _ | .const n _ | .binOp n _ _ _ | .boolOp n _ _ | .unaryOp n _ _ | .compare n _ _ _
  | .call n _ _ _ | .attribute n _ _ _ | .subscript n _ _ _ | .index n _ | .slice n _ _ _
  | .extSlice n _ | .ellipsis n | .tuple n _ _ | .list n _ _ | .dict n _ _ | .coercion n _ _
  | .deferredCoercion n _ _ | .range n _ _ _ | .nativeCall n _ _ _ | .objectCall n _ _ _
  | .arrayAttribute n _ _ _ | .dataPointer n _ | .objectTemp n _ _ | .temp n _ _ => n

/-- The same form with another note. -/
def withNote (n : Note) : Expr → Expr
  | .name _ id a => .name n id a
  | .const _ v => .const n v
  | .binOp _ l op r => .binOp n l op r
  | .boolOp _ op vs => .boolOp n op vs
  | .unaryOp _ op e => .unaryOp n op e
  | .compare _ l ops cs => .compare n l ops cs
  | .call _ f args kws => .call n f args kws
  | .attribute _ v attr a => .attribute n v attr a
  | .subscript _ v s a => .subscript n v s a
  | .index _ v => .index n v
  | .slice _ l u s => .slice n l u s
  | .extSlice _ ds => .extSlice n ds
  | .ellipsis _ => .ellipsis n
  | .tuple _ es a => .tuple n es a
  | .list _ es a => .list n es a
  | .dict _ ks vs => .dict n ks vs
  | .coercion _ e t => .coercion n e t
  | .deferredCoercion _ e slot => .deferredCoercion n e slot
  | .range _ a b c => .range n a b c
  | .nativeCall _ sym sig args => .nativeCall n sym sig args
  | .objectCall _ f args kws => .objectCall n f args kws
  | .arrayAttribute _ attr e a => .arrayAttribute n attr e a
  | .dataPointer _ e => .dataPointer n e
  | .objectTemp _ e id => .objectTemp n e id
  | .temp _ id a => .temp n id a

/-- The place of an expression in the source. -/
def span (e : Expr) : Span := e.note.span

/-- The type that was fixed on an expression. -/
def ty (e : Expr) : Option Ty := e.note.ty

/-- The binding of an expression. -/
def binding (e : Expr) : Option Binding := e.note.binding

/-- Attach a binding. -/
def withBinding (e : Expr) (binding : Binding) : Expr :=
  e.withNote { e.note with binding := some binding }

/-- Fix the type of an expression. -/
def withTy (e : Expr) (ty : Ty) : Expr := e.withNote { e.note with ty := some ty }

/-- The identifier of a plain name. -/
def asName : Expr → Option String
  | .name _ id _ => some id
  | _ => none

/-- Whether an expression is read or written. -/
def access : Expr → Access
  | .name _ _ a | .attribute _ _ _ a | .subscript _ _ _ a | .tuple _ _ a | .list _ _ a
  | .arrayAttribute _ _ _ a | .temp _ _ a => a
  | _ => .load

/-- Mark an expression that can be stored to as read or written. -/
def withAccess (a : Access) : Expr → Expr
  | .name n id _ => .name n id a
  | .attribute n v attr _ => .attribute n v attr a
  | .subscript n v s _ => .subscript n v s a
  | .tuple n es _ => .tuple n es a
  | .list n es _ => .list n es a
  | .arrayAttribute n attr e _ => .arrayAttribute n attr e a
  | .temp n id _ => .temp n id a
  | e => e

end Expr

namespace Note

/-- The note of an expression with a private binding of a type. -/
def typed (span : Span) (ty : Ty) : Note := { span, binding := some (.value (.typed ty)) }

/-- The note of an expression that is made after types were fixed. -/
def annotated (span : Span) (ty : Ty) : Note :=
  { span, binding := some (.value (.typed ty)), ty := some ty }

end Note

/-- A statement. -/
inductive Stmt where
  | assign (span : Span) (targets : List Expr) (value : Expr)
  | augAssign (span : Span) (target : Expr) (op : BinOp) (value : Expr)
  /-- A loop over an iterable; `index` is the counter of a lowered loop. -/
  | forIn (span : Span) (target iter : Expr) (body orelse : List Stmt) (index : Option Expr)
  | whileLoop (span : Span) (test : Expr) (body orelse : List Stmt)
  | branch (span : Span) (test : Expr) (body orelse : List Stmt)
  | ret (span : Span) (value : Option Expr)
  | expr (span : Span) (value : Expr)
  | print (span : Span) (values : List Expr) (dest : Option Expr) (newline : Bool)
  | global (span : Span) (names : List String)
  | pass (span : Span)
  | break (span : Span)
  | continue (span : Span)
  deriving Repr

instance : Inhabited Stmt := ⟨.pass {}⟩

namespace Stmt

/-- The place of a statement in the source. -/
def span : Stmt → Span
  | .assign s _ _ | .augAssign s _ _ _ | .forIn s _ _ _ _ _ | .whileLoop s _ _ _ | .branch s _ _ _
  | .ret s _ | .expr s _ | .print s _ _ _ | .global s _ | .pass s | .break s | .continue s => s

end Stmt

/-- What a function returns when it stops with a host exception pending. -/
structure ErrorReturn where
  value : Option Expr
  deriving Repr, Inhabited

/-- A function. -/
structure FunctionDef where
  name : String
  args : List String
  body : List Stmt
  span : Span := {}
  errorReturn : Option ErrorReturn := none
  /-- The temporaries of the function in the order in which they were made. -/
  temps : List TempDecl := []
  deriving Repr, Inhabited

end KernelFront
