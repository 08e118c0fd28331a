import KernelFront.Tree.Basic

/-! # Building trees

Short names for the forms of the source language, for those who build a function in code. Nodes that
are built this way have no place in a source text.
-/

namespace KernelFront.Builder

/-- A name that is read. -/
def load (id : String) : Expr := .name {} id .load

/-- A name that is written. -/
def store (id : String) : Expr := .name {} id .store

/-- An integer literal. -/
def int (value : Int) : Expr := .const {} (.int value)

/-- A floating-point literal. -/
def float (value : Binary64) : Expr := .const {} (.float value)

/-- A string literal. -/
def string (text : String) : Expr := .const {} (.str text)

/-- An arithmetic operation. -/
def binOp (left : Expr) (op : BinOp) (right : Expr) : Expr := .binOp {} left op right

/-- A comparison. -/
def compare (left : Expr) (op : CmpOp) (right : Expr) : Expr := .compare {} left [op] [right]

/-- A call with keyword arguments. -/
def callWith (func : Expr) (args : List Expr) (keywords : List (String × Expr)) : Expr :=
  .call {} func args keywords

/-- A call. -/
def call (func : Expr) (args : List Expr) : Expr := callWith func args []

/-- An attribute that is read. -/
def attr (value : Expr) (name : String) : Expr := .attribute {} value name .load

/-- A subscript that is read. -/
def subscript (value selector : Expr) : Expr := .subscript {} value selector .load

/-- A subscript by a single expression. -/
def index (value i : Expr) : Expr := subscript value (.index {} i)

/-- A slice without a step. -/
def slice (lower upper : Option Expr) : Expr := .slice {} lower upper none

/-- The selectors of a multidimensional subscript. -/
def extSlice (dims : List Expr) : Expr := .extSlice {} dims

/-- An ellipsis. -/
def ellipsis : Expr := .ellipsis {}

/-- A tuple that is read. -/
def tuple (elts : List Expr) : Expr := .tuple {} elts .load

/-- A tuple of targets. -/
def tupleStore (elts : List Expr) : Expr := .tuple {} elts .store

/-- An assignment to one target. -/
def assign (target value : Expr) : Stmt := .assign {} [target] value

/-- An augmented assignment. -/
def augAssign (target : Expr) (op : BinOp) (value : Expr) : Stmt := .augAssign {} target op value

/-- A return statement. -/
def ret (value : Option Expr) : Stmt := .ret {} value

/-- An expression that stands as a statement. -/
def exprStmt (value : Expr) : Stmt := .expr {} value

/-- A print statement that ends its line. -/
def print (values : List Expr) : Stmt := .print {} values none true

/-- A loop over an iterable. -/
def forIn (target iter : Expr) (body : List Stmt) : Stmt := .forIn {} target iter body [] none

/-- A loop with a test. -/
def whileLoop (test : Expr) (body : List Stmt) : Stmt := .whileLoop {} test body []

/-- A branch. -/
def branch (test : Expr) (body orelse : List Stmt) : Stmt := .branch {} test body orelse

/-- A function. -/
def function (name : String) (args : List String) (body : List Stmt) : FunctionDef :=
  { name, args, body }

end KernelFront.Builder
