import KernelFront.Tree.Basic

/-! # Walking trees

The direct parts of expressions and statements in the order in which passes reach them, the lists of
everything that occurs in a function, and one rebuilding walk that all passes share. `Expr.rebuildM`
rebuilds an expression from its leaves up; `Stmt.rebuildBodyM` does so with every expression of a
statement, then with its nested bodies, and then lets the statement itself become any number of
statements.
-/

namespace KernelFront

namespace Expr

/-- The direct sub-expressions, from left to right. -/
def children : Expr → List Expr
  | .name _ _ _ | .const _ _ | .ellipsis _ | .temp _ _ _ => []
  | .binOp _ left _ right => [left, right]
  | .boolOp _ _ values => values
  | .unaryOp _ _ operand => [operand]
  | .compare _ left _ comparators => left :: comparators
  | .call _ func args keywords | .objectCall _ func args keywords =>
      func :: (args ++ keywords.map Prod.snd)
  | .attribute _ value _ _ => [value]
  | .subscript _ value selector _ => [value, selector]
  | .index _ value => [value]
  | .slice _ lower upper step => lower.toList ++ upper.toList ++ step.toList
  | .extSlice _ dims => dims
  | .tuple _ elts _ | .list _ elts _ => elts
  | .dict _ keys values => keys ++ values
  | .coercion _ node _ | .deferredCoercion _ node _ | .objectTemp _ node _ => [node]
  | .range _ start stop step => [start, stop, step]
  | .nativeCall _ _ _ args => args
  | .arrayAttribute _ _ array _ | .dataPointer _ array => [array]

mutual

/-- An expression with everything below it, each node before its children. -/
def nodes : Expr → List Expr
  | e@(.name _ _ _) | e@(.const _ _) | e@(.ellipsis _) | e@(.temp _ _ _) => [e]
  | e@(.binOp _ left _ right) => e :: (left.nodes ++ right.nodes)
  | e@(.boolOp _ _ values) => e :: nodesAll values
  | e@(.unaryOp _ _ operand) => e :: operand.nodes
  | e@(.compare _ left _ comparators) => e :: (left.nodes ++ nodesAll comparators)
  | e@(.call _ func args keywords) =>
      e :: (func.nodes ++ nodesAll args ++ nodesKeywords keywords)
  | e@(.objectCall _ func args keywords) =>
      e :: (func.nodes ++ nodesAll args ++ nodesKeywords keywords)
  | e@(.attribute _ value _ _) => e :: value.nodes
  | e@(.subscript _ value selector _) => e :: (value.nodes ++ selector.nodes)
  | e@(.index _ value) => e :: value.nodes
  | e@(.slice _ lower upper step) => e :: (nodesPart lower ++ nodesPart upper ++ nodesPart step)
  | e@(.extSlice _ dims) => e :: nodesAll dims
  | e@(.tuple _ elts _) => e :: nodesAll elts
  | e@(.list _ elts _) => e :: nodesAll elts
  | e@(.dict _ keys values) => e :: (nodesAll keys ++ nodesAll values)
  | e@(.coercion _ node _) => e :: node.nodes
  | e@(.deferredCoercion _ node _) => e :: node.nodes
  | e@(.objectTemp _ node _) => e :: node.nodes
  | e@(.range _ start stop step) => e :: (start.nodes ++ stop.nodes ++ step.nodes)
  | e@(.nativeCall _ _ _ args) => e :: nodesAll args
  | e@(.arrayAttribute _ _ array _) => e :: array.nodes
  | e@(.dataPointer _ array) => e :: array.nodes

/-- The nodes of several expressions, one after the other. -/
def nodesAll : List Expr → List Expr
  | [] => []
  | e :: es => e.nodes ++ nodesAll es

/-- The nodes of keyword arguments. -/
def nodesKeywords : List (String × Expr) → List Expr
  | [] => []
  | (_, e) :: kws => e.nodes ++ nodesKeywords kws

/-- The nodes of an optional part. -/
def nodesPart : Option Expr → List Expr
  | none => []
  | some e => e.nodes

end

variable {m : Type → Type} [Monad m]

mutual

/-- Rebuild an expression from its leaves up: the children in order, then the node itself. -/
def rebuildM (f : Expr → m Expr) : Expr → m Expr
  | .name n id a => f (.name n id a)
  | .const n v => f (.const n v)
  | .ellipsis n => f (.ellipsis n)
  | .temp n id a => f (.temp n id a)
  | .binOp n left op right => do
      let left ← rebuildM f left
      let right ← rebuildM f right
      f (.binOp n left op right)
  | .boolOp n op values => do
      let values ← rebuildAllM f values
      f (.boolOp n op values)
  | .unaryOp n op operand => do
      let operand ← rebuildM f operand
      f (.unaryOp n op operand)
  | .compare n left ops comparators => do
      let left ← rebuildM f left
      let comparators ← rebuildAllM f comparators
      f (.compare n left ops comparators)
  | .call n func args keywords => do
      let func ← rebuildM f func
      let args ← rebuildAllM f args
      let keywords ← rebuildKeywordsM f keywords
      f (.call n func args keywords)
  | .objectCall n func args keywords => do
      let func ← rebuildM f func
      let args ← rebuildAllM f args
      let keywords ← rebuildKeywordsM f keywords
      f (.objectCall n func args keywords)
  | .attribute n value attr a => do
      let value ← rebuildM f value
      f (.attribute n value attr a)
  | .subscript n value selector a => do
      let value ← rebuildM f value
      let selector ← rebuildM f selector
      f (.subscript n value selector a)
  | .index n value => do
      let value ← rebuildM f value
      f (.index n value)
  | .slice n lower upper step => do
      let lower ← rebuildPartM f lower
      let upper ← rebuildPartM f upper
      let step ← rebuildPartM f step
      f (.slice n lower upper step)
  | .extSlice n dims => do
      let dims ← rebuildAllM f dims
      f (.extSlice n dims)
  | .tuple n elts a => do
      let elts ← rebuildAllM f elts
      f (.tuple n elts a)
  | .list n elts a => do
      let elts ← rebuildAllM f elts
      f (.list n elts a)
  | .dict n keys values => do
      let keys ← rebuildAllM f keys
      let values ← rebuildAllM f values
      f (.dict n keys values)
  | .coercion n node target => do
      let node ← rebuildM f node
      f (.coercion n node target)
  | .deferredCoercion n node slot => do
      let node ← rebuildM f node
      f (.deferredCoercion n node slot)
  | .objectTemp n node id => do
      let node ← rebuildM f node
      f (.objectTemp n node id)
  | .range n start stop step => do
      let start ← rebuildM f start
      let stop ← rebuildM f stop
      let step ← rebuildM f step
      f (.range n start stop step)
  | .nativeCall n symbol signature args => do
      let args ← rebuildAllM f args
      f (.nativeCall n symbol signature args)
  | .arrayAttribute n attr array a => do
      let array ← rebuildM f array
      f (.arrayAttribute n attr array a)
  | .dataPointer n array => do
      let array ← rebuildM f array
      f (.dataPointer n array)

/-- Rebuild several expressions in order. -/
def rebuildAllM (f : Expr → m Expr) : List Expr → m (List Expr)
  | [] => pure []
  | e :: es => do
      let e ← rebuildM f e
      let es ← rebuildAllM f es
      pure (e :: es)

/-- Rebuild the values of keyword arguments in order. -/
def rebuildKeywordsM (f : Expr → m Expr) :
    List (String × Expr) → m (List (String × Expr))
  | [] => pure []
  | (arg, e) :: kws => do
      let e ← rebuildM f e
      let kws ← rebuildKeywordsM f kws
      pure ((arg, e) :: kws)

/-- Rebuild an optional part. -/
def rebuildPartM (f : Expr → m Expr) : Option Expr → m (Option Expr)
  | none => pure none
  | some e => do
      let e ← rebuildM f e
      pure (some e)

end

end Expr

namespace Stmt

/-- The name of a statement form. -/
def formName : Stmt → String
  | .assign .. => "Assign"
  | .augAssign .. => "AugAssign"
  | .forIn .. => "For"
  | .whileLoop .. => "While"
  | .branch .. => "If"
  | .ret .. => "Return"
  | .expr .. => "Expr"
  | .print .. => "Print"
  | .global .. => "Global"
  | .pass .. => "Pass"
  | .break .. => "Break"
  | .continue .. => "Continue"

/-- The expressions of a statement itself, not of its nested bodies. -/
def exprs : Stmt → List Expr
  | .assign _ targets value => targets ++ [value]
  | .augAssign _ target _ value => [target, value]
  | .forIn _ target iter _ _ index => target :: iter :: index.toList
  | .whileLoop _ test _ _ | .branch _ test _ _ => [test]
  | .ret _ value => value.toList
  | .expr _ value => [value]
  | .print _ values dest _ => dest.toList ++ values
  | .global _ _ | .pass _ | .break _ | .continue _ => []

/-- The expressions of a statement itself with everything below them. -/
def nodes (stmt : Stmt) : List Expr := Expr.nodesAll stmt.exprs

/-- The nested bodies of a statement. -/
def bodies : Stmt → List (List Stmt)
  | .forIn _ _ _ body orelse _ | .whileLoop _ _ body orelse | .branch _ _ body orelse =>
      [body, orelse]
  | _ => []

mutual

/-- A statement with all statements in its bodies, each before those in its own bodies. -/
def nested : Stmt → List Stmt
  | stmt@(.forIn _ _ _ body orelse _) | stmt@(.whileLoop _ _ body orelse)
  | stmt@(.branch _ _ body orelse) => stmt :: (nestedBody body ++ nestedBody orelse)
  | stmt => [stmt]

/-- The statements of a body at every depth. -/
def nestedBody : List Stmt → List Stmt
  | [] => []
  | stmt :: body => stmt.nested ++ nestedBody body

end

variable {m : Type → Type} [Monad m]

mutual

/-- Rebuild the expressions of a statement, then its bodies, then the statement itself. -/
def rebuildM (f : Expr → m Expr) (g : Stmt → m (List Stmt)) : Stmt → m (List Stmt)
  | .assign span targets value => do
      let targets ← Expr.rebuildAllM f targets
      let value ← Expr.rebuildM f value
      g (.assign span targets value)
  | .augAssign span target op value => do
      let target ← Expr.rebuildM f target
      let value ← Expr.rebuildM f value
      g (.augAssign span target op value)
  | .forIn span target iter body orelse index => do
      let target ← Expr.rebuildM f target
      let iter ← Expr.rebuildM f iter
      let index ← Expr.rebuildPartM f index
      let body ← rebuildBodyM f g body
      let orelse ← rebuildBodyM f g orelse
      g (.forIn span target iter body orelse index)
  | .whileLoop span test body orelse => do
      let test ← Expr.rebuildM f test
      let body ← rebuildBodyM f g body
      let orelse ← rebuildBodyM f g orelse
      g (.whileLoop span test body orelse)
  | .branch span test body orelse => do
      let test ← Expr.rebuildM f test
      let body ← rebuildBodyM f g body
      let orelse ← rebuildBodyM f g orelse
      g (.branch span test body orelse)
  | .ret span value => do
      let value ← Expr.rebuildPartM f value
      g (.ret span value)
  | .expr span value => do
      let value ← Expr.rebuildM f value
      g (.expr span value)
  | .print span values dest newline => do
      let dest ← Expr.rebuildPartM f dest
      let values ← Expr.rebuildAllM f values
      g (.print span values dest newline)
  | .global span names => g (.global span names)
  | .pass span => g (.pass span)
  | .break span => g (.break span)
  | .continue span => g (.continue span)

/-- Rebuild the statements of a body in order and splice the results. -/
def rebuildBodyM (f : Expr → m Expr) (g : Stmt → m (List Stmt)) : List Stmt → m (List Stmt)
  | [] => pure []
  | stmt :: body => do
      let stmts ← rebuildM f g stmt
      let rest ← rebuildBodyM f g body
      pure (stmts ++ rest)

end

end Stmt

namespace FunctionDef

/-- The statements of a function at every depth, in the order in which they are written. -/
def statements (func : FunctionDef) : List Stmt := Stmt.nestedBody func.body

/-- The expressions in the body of a function at every depth. -/
def nodes (func : FunctionDef) : List Expr := func.statements.flatMap Stmt.nodes

end FunctionDef

-- Many proofs unfold these functions, so their equations are made here, once for all of them.
attribute [local simp] Expr.nodes Expr.nodesAll Expr.nodesKeywords Expr.nodesPart Expr.rebuildM
  Expr.rebuildAllM Expr.rebuildKeywordsM Expr.rebuildPartM Stmt.nested Stmt.nestedBody
  Stmt.rebuildM Stmt.rebuildBodyM

end KernelFront
