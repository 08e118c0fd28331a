import KernelFront.Inference.Attribute
import KernelFront.Inference.Call
import KernelFront.Inference.Operator
import KernelFront.Inference.Subscript

/-! # Inference of expressions

An expression is visited from its leaves up and from left to right; each form has a rule that builds
it from its visited parts. Forms that only later passes make are not expected here.
-/

namespace KernelFront.Inference

variable (setting : Setting)

mutual

/-- Bind an expression and all its parts. -/
def inferExpr : Expr → Infer Expr
  | .name note id access => visitName setting id access note.span
  | .const note value => pure (literal value note.span)
  | .ellipsis note =>
      let var := Variable.constant .ellipsis .ellipsis
      pure (.ellipsis { span := note.span, binding := some (.value var) })
  | .binOp note left op right => do
      let left ← inferExpr left
      let right ← inferExpr right
      apply (typeBinOp note.span left op right)
  | .boolOp note op values =>
      if values.length ≠ 2 then
        refuse (.unsupported "boolean operation with more than two operands") note.span
      else do
        let values ← inferAll values
        apply fun table => .ok (typeBoolOp note.span op values table)
  | .unaryOp note op operand => do
      let operand ← inferExpr operand
      apply (typeUnaryOp note.span op operand)
  | .compare note left [op] [right] => do
      let left ← inferExpr left
      let right ← inferExpr right
      apply (typeCompare note.span left op right)
  | .compare note _ _ _ => refuse (.unsupported "chained comparison") note.span
  | .call note func args keywords => do
      let func ← inferExpr func
      let args ← inferAll args
      let keywords ← inferKeywords keywords
      typeCall setting note.span func args keywords
  | .attribute note value attr access => do
      let value ← inferExpr value
      apply (typeAttribute setting note.span value attr access)
  | .subscript note value selector access => do
      let value ← inferExpr value
      let selector ← inferExpr selector
      apply (typeSubscript note.span value selector access)
  | .index note value => do
      let value ← inferExpr value
      apply (typeIndex note.span value)
  | .slice note lower upper step => do
      let lower ← inferPart lower
      let upper ← inferPart upper
      let step ← inferPart step
      pure (.slice (.typed note.span .slice) lower upper step)
  | .extSlice note dims => do
      let dims ← inferAll dims
      pure (.extSlice (.typed note.span .object) dims)
  | .tuple note elts access => do
      let elts ← inferAll elts
      apply fun table => .ok (typeTuple note.span elts access table)
  | .list note elts access => do
      let elts ← inferAll elts
      pure (typeList note.span elts access)
  | .dict note keys values => do
      let keys ← inferAll keys
      let values ← inferAll values
      apply fun table => .ok (typeDict note.span keys values table)
  | .coercion note _ _ | .deferredCoercion note _ _ | .range note _ _ _ | .nativeCall note _ _ _
  | .objectCall note _ _ _ | .arrayAttribute note _ _ _ | .dataPointer note _
  | .objectTemp note _ _ | .temp note _ _ =>
      refuse (.internal "lowered node in an input tree") note.span

/-- Bind several expressions in order. -/
def inferAll : List Expr → Infer (List Expr)
  | [] => pure []
  | e :: es => do
      let e ← inferExpr e
      let es ← inferAll es
      pure (e :: es)

/-- Bind the values of keyword arguments in order. -/
def inferKeywords : List (String × Expr) → Infer (List (String × Expr))
  | [] => pure []
  | (name, e) :: keywords => do
      let e ← inferExpr e
      let keywords ← inferKeywords keywords
      pure ((name, e) :: keywords)

/-- Bind an optional part. -/
def inferPart : Option Expr → Infer (Option Expr)
  | none => pure none
  | some e => do
      let e ← inferExpr e
      pure (some e)

end

-- Many proofs unfold these functions, so their equations are made here, once for all of them.
attribute [local simp] inferExpr inferAll inferKeywords inferPart

end KernelFront.Inference
