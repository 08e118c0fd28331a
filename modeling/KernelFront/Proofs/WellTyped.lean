import KernelFront.Proofs.Traversal

/-! # Well-typed trees

What later passes rely on: every expression has a type, and operands, tests, arguments, bounds,
stored values and returned values have the types that their places ask for. The types of parts are
told by a function, since they are known before they are fixed on the tree.
-/

namespace KernelFront

/-- The parts of an expression have the types that it asks for, as `read` tells them. Plain calls
have been replaced, and forms that later passes make are absent. -/
def Expr.Agrees (index : Ty) (read : Expr → Option Ty) : Expr → Prop
  | .binOp note left op right =>
      ∃ ty, read (.binOp note left op right) = some ty ∧ read left = some ty ∧ read right = some ty
  | .boolOp _ _ values => ∀ value ∈ values, read value = some .bool
  | .unaryOp _ op operand => op = .not → read operand = some .bool
  | .compare _ left _ comparators =>
      ∃ ty, read left = some ty ∧ ∀ right ∈ comparators, read right = some ty
  | .dict _ keys values => ∀ e ∈ keys ++ values, read e = some .object
  | .range _ start stop step => ∀ bound ∈ [start, stop, step], read bound = some index
  | .nativeCall _ _ signature args => args.map read = signature.args.map some
  | .objectCall _ func args keywords =>
      ∀ e ∈ func :: (args ++ keywords.map Prod.snd), read e = some .object
  | .call _ _ _ _ | .deferredCoercion _ _ _ | .dataPointer _ _ | .objectTemp _ _ _
  | .temp _ _ _ => False
  | _ => True

/-- The parts of a statement have the types that it asks for, returned values apart. Loops are not
counted yet, and augmented assignments have been replaced. -/
def Stmt.Agrees (read : Expr → Option Ty) : Stmt → Prop
  | .assign _ targets value =>
      ∃ target ty, targets = [target] ∧ read target = some ty ∧ read value = some ty
  | .augAssign _ _ _ _ => False
  | .forIn _ _ _ _ _ index => index = none
  | .whileLoop _ test _ _ | .branch _ test _ _ => read test = some .bool
  | .print _ values _ _ => ∀ value ∈ values, read value = some .object
  | _ => True

/-- A returned value has the type of the result; nothing is returned from a `void` function only. -/
def Stmt.Returns (ret : Ty) : Stmt → Prop
  | .ret _ none => ret = .void
  | .ret _ (some value) => value.ty = some ret
  | _ => True

/-- Every expression of a function has a type, and operands, tests, arguments, bounds, stored values
and returned values have the types that their places ask for. -/
structure FunctionDef.WellTyped (index ret : Ty) (func : FunctionDef) : Prop where
  typed : ∀ node ∈ func.nodes, node.ty.isSome
  nodes : ∀ node ∈ func.nodes, node.Agrees index Expr.ty
  statements : ∀ stmt ∈ func.statements, stmt.Agrees Expr.ty
  returns : ∀ stmt ∈ func.statements, stmt.Returns ret
  errorReturn : func.errorReturn = none

section Reading

variable {index : Ty} {read later : Expr → Option Ty}

theorem map_eq_some_mono (hread : ∀ {e ty}, read e = some ty → later e = some ty) {es : List Expr}
    {types : List Ty} (hes : es.map read = types.map some) : es.map later = types.map some := by
  induction es generalizing types with
  | nil => exact hes
  | cons e es ih =>
      cases types with
      | nil => cases hes
      | cons ty types =>
          simp only [List.map_cons, List.cons.injEq] at hes ⊢
          exact ⟨hread hes.1, ih hes.2⟩

/-- Who knows more types finds the same agreement. -/
theorem Expr.Agrees.mono (hread : ∀ {e ty}, read e = some ty → later e = some ty) {e : Expr}
    (hagrees : e.Agrees index read) : e.Agrees index later := by
  cases e with
  | binOp note left op right =>
      obtain ⟨ty, hown, hleft, hright⟩ := hagrees
      exact ⟨ty, hread hown, hread hleft, hread hright⟩
  | boolOp | dict | range | objectCall => exact fun e he => hread (hagrees e he)
  | unaryOp => exact fun hop => hread (hagrees hop)
  | compare =>
      obtain ⟨ty, hleft, hrights⟩ := hagrees
      exact ⟨ty, hread hleft, fun right hright => hread (hrights right hright)⟩
  | nativeCall => exact map_eq_some_mono hread hagrees
  | _ => exact hagrees

theorem Stmt.Agrees.mono (hread : ∀ {e ty}, read e = some ty → later e = some ty) {stmt : Stmt}
    (hagrees : stmt.Agrees read) : stmt.Agrees later := by
  cases stmt with
  | assign =>
      obtain ⟨target, ty, htargets, htarget, hvalue⟩ := hagrees
      exact ⟨target, ty, htargets, hread htarget, hread hvalue⟩
  | whileLoop | branch => exact hread hagrees
  | print => exact fun value hvalue => hread (hagrees value hvalue)
  | _ => exact hagrees

end Reading

end KernelFront
