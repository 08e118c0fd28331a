import KernelFront.Inference.Scope

/-! # Rules for subscripts

A pointer or an array of fixed size takes one integer. A multidimensional array takes one selector
per axis; a new axis consumes none, an ellipsis stands for full slices on the axes that the others
leave, and axes at the end that are not mentioned are taken whole. If the compiler cannot tell what
a selector selects, the whole subscript is left to the host.
-/

namespace KernelFront.Inference

/-- What a selector does to the axes of an array. -/
inductive SelectorKind where
  /-- Take the axes that the other selectors leave. -/
  | ellipsis
  /-- Take one element of an axis. -/
  | integer
  /-- Take a part of an axis. -/
  | slice
  /-- Make an axis of length one. -/
  | newAxis
  /-- Unknown until run time. -/
  | other
  deriving DecidableEq, Repr

/-- The kind of a visited selector. -/
def selectorKind (table : SymbolTable) (e : Expr) : Except TypeError SelectorKind := do
  let ty ← typeOf table e
  if ty = .ellipsis then pure .ellipsis
  else if ty.isInt then pure .integer
  else if ty = .slice then pure .slice
  else if ty = .newAxis ∨ isNothing table e then pure .newAxis
  else pure .other

/-- The selectors of a visited subscript, one per axis, if it can be read that way. -/
def selectors? : Expr → Option (List Expr)
  | .index _ (.tuple _ elts _) => some elts
  | .index note value => some [.index note value]
  | .ellipsis note => some [.ellipsis note]
  | .slice note lower upper step => some [.slice note lower upper step]
  | .extSlice _ dims => some dims
  | .tuple _ elts _ => some elts
  | _ => none

/-- The selector that takes a whole axis. -/
def fullSlice (span : Span) : Expr := .slice (.typed span .slice) none none none

/-- Write the first ellipsis as `fill` full slices and each further one as a single full slice. -/
def expandEllipses (fill : Nat) : List (SelectorKind × Expr) → List Expr
  | [] => []
  | (.ellipsis, e) :: selectors =>
      List.replicate fill (fullSlice e.span) ++ expandEllipses 1 selectors
  | (_, e) :: selectors => e :: expandEllipses fill selectors

/-- A subscript of the boxed value. -/
def hostSubscript (span : Span) (value selector : Expr) (access : Access) (table : SymbolTable) :
    Expr :=
  .subscript (.typed span .object) (value.convert table .object) selector access

/-- The type of what is left of an array when its axes have been selected. -/
def selectedType (elem : Ty) (rank : Nat) : Ty :=
  if rank = 0 then elem else .strided elem rank

/-- A subscript of a multidimensional array. -/
def arraySubscript (span : Span) (elem : Ty) (ndim : Nat) (value selector : Expr) (access : Access)
    (table : SymbolTable) : Except TypeError Expr :=
  match selectors? selector with
  | none => .ok (hostSubscript span value selector access table)
  | some selectors => do
      let kinds ← selectors.mapM (selectorKind table)
      let count (kind : SelectorKind) := kinds.count kind
      let newAxes := count .newAxis
      let expanded :=
        expandEllipses (ndim + 1 - (selectors.length - newAxes)) (kinds.zip selectors)
      let selectorSpan := selectors.head?.elim span Expr.span
      let combine (dims : List Expr) : Expr := .extSlice (.typed selectorSpan .object) dims
      if 0 < count .other then
        pure (hostSubscript span value (combine expanded) access table)
      else
        let consumed := expanded.length - newAxes
        if ndim < consumed then throw ⟨.tooManyIndices ndim consumed, span⟩
        else
          let dims := expanded ++ List.replicate (ndim - consumed) (fullSlice selectorSpan)
          let ty := selectedType elem (ndim + newAxes - count .integer)
          pure (.subscript (.typed span ty) value (combine dims) access)

/-- A subscript of a value that holds its elements in memory: one integer selects one of them. -/
def elementSubscript (span : Span) (elem : Ty) (value selector : Expr) (access : Access)
    (table : SymbolTable) : Except TypeError Expr := do
  let indexTy ← typeOf table selector
  match selector, indexTy.isInt with
  | .index _ index, true => pure (.subscript (.typed span elem) value index access)
  | _, _ => do
      let ty ← typeOf table value
      throw ⟨.invalidIndex ty (some indexTy), span⟩

/-- A subscript of a value. -/
def typeSubscript (span : Span) (value selector : Expr) (access : Access) (table : SymbolTable) :
    Except TypeError Expr := do
  match ← typeOf table value with
  | .array elem layout => arraySubscript span elem layout.ndim value selector access table
  | .carray elem _ | .pointer elem => elementSubscript span elem value selector access table
  | .object => pure (.subscript (.typed span .object) value selector access)
  | ty => throw ⟨.invalidIndex ty (selector.typeIn? table), span⟩

end KernelFront.Inference
