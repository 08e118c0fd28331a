import KernelFront.Tree.Basic

/-! # Local names

The names that a function binds are its parameters and the names that occur as targets of
assignments and loops anywhere in its body, inside tuple and list targets included. Attribute and
subscript targets write into an existing value and bind nothing.
-/

namespace KernelFront

mutual

/-- The names that a target binds, from left to right. -/
def Expr.targetNames : Expr → List String
  | .name _ id _ => [id]
  | .tuple _ elts _ => Expr.targetNamesAll elts
  | .list _ elts _ => Expr.targetNamesAll elts
  | _ => []

/-- The names that several targets bind, from left to right. -/
def Expr.targetNamesAll : List Expr → List String
  | [] => []
  | e :: es => e.targetNames ++ Expr.targetNamesAll es

end

mutual

/-- Every name a statement binds, with repetitions: a loop's target before its body, the body
before its alternative. -/
def Stmt.boundNames : Stmt → List String
  | .assign _ targets _ => Expr.targetNamesAll targets
  | .augAssign _ target _ _ => target.targetNames
  | .forIn _ target _ body orelse _ =>
      target.targetNames ++ Stmt.boundNamesBody body ++ Stmt.boundNamesBody orelse
  | .whileLoop _ _ body orelse => Stmt.boundNamesBody body ++ Stmt.boundNamesBody orelse
  | .branch _ _ body orelse => Stmt.boundNamesBody body ++ Stmt.boundNamesBody orelse
  | _ => []

/-- Every name a body binds, with repetitions. -/
def Stmt.boundNamesBody : List Stmt → List String
  | [] => []
  | stmt :: body => stmt.boundNames ++ Stmt.boundNamesBody body

end

/-- The first occurrences in a list of the elements that are not in `seen`. -/
def firstOccurrences (seen : List String) : List String → List String
  | [] => []
  | name :: names =>
      if name ∈ seen then firstOccurrences seen names
      else name :: firstOccurrences (name :: seen) names

/-- The names a function binds besides its parameters, in order of first appearance. -/
def FunctionDef.localNames (func : FunctionDef) : List String :=
  firstOccurrences func.args (Stmt.boundNamesBody func.body)

-- Many proofs unfold these functions, so their equations are made here, once for all of them.
attribute [local simp] Expr.targetNames Expr.targetNamesAll Stmt.boundNames Stmt.boundNamesBody

end KernelFront
