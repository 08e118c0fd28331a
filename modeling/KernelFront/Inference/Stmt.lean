import KernelFront.Inference.Expr

/-! # Inference of statements

Locals take the type of the first value stored in them, and later values are converted to it. An
unpacking assignment becomes one assignment for each element, an augmented assignment a plain one.
The values of all return statements meet in the result binding, so a later return may widen earlier
ones.
-/

namespace KernelFront.Inference

/-- Store a value in a place that was visited: a local without a type takes the type of the value,
and any other place must have a common type with it. -/
def typeStore (target value : Expr) (span : Span) : Infer Stmt := do
  let table := (← get).symbols
  let rhs ← apply fun table => typeOf table value
  let settled : Infer Stmt := apply fun table => do
    let lhs ← typeOf table target
    if lhs ≠ rhs then discard (join lhs rhs value.span)
    pure (.assign span [target] (value.convert table lhs))
  match target.binding with
  | some (.symbol id) =>
      if (table.get? id).any fun var => var.ty.isNone then do
        modify fun scope => scope.setType id rhs
        pure (.assign span [target] value)
      else settled
  | _ => settled

/-- The number of elements of a value that can be unpacked. -/
def unpackedSize (value : Expr) (table : SymbolTable) : Except TypeError Nat := do
  match ← typeOf table value with
  | .carray _ size | .list size _ | .tuple size _ => pure size
  | ty => throw ⟨.unpackType ty, value.span⟩

variable (setting : Setting)

/-- The elements of a value that is unpacked: an array of fixed size is subscripted, a display is
taken apart, and constants are written out. -/
def unpackedElements (value : Expr) (table : SymbolTable) : Except TypeError (List Expr) := do
  match ← typeOf table value, value with
  | .carray elem size, array =>
      pure ((List.range size).map fun (i : Nat) =>
        .subscript (.typed array.span elem) array (indexConstant setting i array.span) .load)
  | _, .tuple _ elts _ | _, .list _ elts _ => pure elts
  | ty, value =>
      match ty.constantElements with
      | some items => pure (items.map fun item => literal item value.span)
      | none => throw ⟨.unsupported "unpacking a value that is not a literal", value.span⟩

/-- Store elements in targets, one by one. -/
def storeAll (span : Span) : List Expr → List Expr → Infer (List Stmt)
  | target :: targets, element :: elements => do
      let target ← inferExpr setting target
      let stmt ← typeStore target element span
      let stmts ← storeAll span targets elements
      pure (stmt :: stmts)
  | _, _ => pure []

/-- Unpack a visited value into targets. -/
def unpack (span : Span) (targets : List Expr) (value : Expr) : Infer (List Stmt) := do
  let size ← apply (unpackedSize value)
  if size ≠ targets.length then refuse (.unpackArity size targets.length) value.span
  else do
    let elements ← apply (unpackedElements setting value)
    storeAll setting span targets elements

/-- An assignment of a visited value. -/
def inferAssign (span : Span) (targets : List Expr) (value : Expr) : Infer (List Stmt) :=
  match targets with
  | [.tuple _ elts _] | [.list _ elts _] => unpack setting span elts value
  | [target] => storeAll setting span [target] [value]
  | targets => unpack setting span targets value

/-- What the elements of an iterable are. -/
def elementType (iter : Expr) (table : SymbolTable) : Except TypeError Ty := do
  match ← typeOf table iter with
  | .range => pure setting.options.indexType
  | .array elem layout =>
      if layout.ndim = 1 then pure elem
      else pure (.array elem { layout with ndim := layout.ndim - 1 })
  | ty => throw ⟨.notIterable ty, iter.span⟩

/-- Let a visited loop target take the elements of an iterable. -/
def bindElement (target : Expr) (element : Ty) : Infer Unit := do
  let table := (← get).symbols
  let settled : Infer Unit := apply fun table => do
    let current ← typeOf table target
    if current ≠ element then discard (join current element target.span)
  match target.binding with
  | some (.symbol id) =>
      if (table.get? id).any fun var => var.ty.isNone then
        modify fun scope => scope.setType id element
      else settled
  | _ => settled

/-- A return statement without a value, which makes the result `void`. -/
def returnNothing (span : Span) : Infer Stmt := do
  match (← get).resultType? with
  | none | some .void =>
      modify fun scope => scope.setType Scope.resultSlot .void
      pure (.ret span none)
  | some ty => refuse (.promotion ty .void) span

/-- A return statement with a visited value, which widens the result. -/
def returnValue (span : Span) (value : Expr) : Infer Stmt := do
  let ty ← apply fun table => typeOf table value
  let widened ← match (← get).resultType? with
    | none => pure ty
    | some current => apply fun _ => join current ty value.span
  modify fun scope => scope.setType Scope.resultSlot widened
  let note : Note := { span := value.span, binding := some (.symbol Scope.resultSlot) }
  pure (.ret span (some (.deferredCoercion note value Scope.resultSlot)))

/-- A return statement of a visited value. Returning `None` returns nothing. -/
def inferReturn (span : Span) : Option Expr → Infer Stmt
  | none => returnNothing span
  | some value => do
      if isNothing (← get).symbols value then returnNothing span
      else returnValue span value

/-- The test of a loop or branch: a truth value. -/
def inferTest (test : Expr) : Infer Expr := do
  let test ← inferExpr setting test
  apply fun table => .ok (test.convert table .bool)

/-- The values of a print statement: boxed, one after the other. -/
def inferPrinted : List Expr → Infer (List Expr)
  | [] => pure []
  | value :: values => do
      let value ← inferExpr setting value
      let value ← apply fun table => .ok (value.convert table .object)
      let values ← inferPrinted values
      pure (value :: values)

mutual

/-- Bind a statement; the result may be several statements. -/
def inferStmt : Stmt → Infer (List Stmt)
  | .assign span targets value => do
      let value ← inferExpr setting value
      inferAssign setting span targets value
  | .augAssign span target op value => do
      let current := target.withAccess .load
      let value ← inferExpr setting (.binOp { span } current op value)
      storeAll setting span [target] [value]
  | .forIn span target iter body orelse index => do
      if orelse.isEmpty = false then refuse (.unsupported "`else` clause on a for loop") span
      else if target.asName.isNone then
        refuse (.unsupported "for loop target that is not a plain name") target.span
      else do
        let iter ← inferExpr setting iter
        let element ← apply (elementType setting iter)
        let target ← inferExpr setting target
        bindElement target element
        let body ← inferBody body
        pure [.forIn span target iter body [] index]
  | .whileLoop span test body orelse => do
      if orelse.isEmpty = false then refuse (.unsupported "`else` clause on a while loop") span
      else do
        let test ← inferTest setting test
        let body ← inferBody body
        pure [.whileLoop span test body []]
  | .branch span test body orelse => do
      let test ← inferTest setting test
      let body ← inferBody body
      let orelse ← inferBody orelse
      pure [.branch span test body orelse]
  | .ret span value => do
      let value ← inferPart setting value
      let stmt ← inferReturn span value
      pure [stmt]
  | .expr span value => do
      let value ← inferExpr setting value
      pure [.expr span value]
  | .print span values dest newline => do
      let values ← inferPrinted setting values
      let dest ← inferPart setting dest
      pure [.print span values dest newline]
  | .global span _ => refuse (.unsupported "`global` statement") span
  | .pass span => pure [.pass span]
  | .break span => pure [.break span]
  | .continue span => pure [.continue span]

/-- Bind the statements of a body in order. -/
def inferBody : List Stmt → Infer (List Stmt)
  | [] => pure []
  | stmt :: body => do
      let stmts ← inferStmt stmt
      let rest ← inferBody body
      pure (stmts ++ rest)

end

-- Many proofs unfold these functions, so their equations are made here, once for all of them.
attribute [local simp] storeAll inferPrinted inferStmt inferBody

end KernelFront.Inference
