import KernelFront.Proofs.Inference.Outcomes
import KernelFront.Proofs.Promotion
import KernelFront.Proofs.Source

/-! # What statements come to

The steps that statements take, turned around like the rules for expressions: what a store, an
assignment, a return statement or a loop makes of its parts, and the scope that it leaves. A run of
stores is followed by induction on the stores that it makes.
-/

namespace KernelFront.Inference

open Scope (resultSlot)

variable {setting : Setting} {span : Span} {before after : Scope}

/-! ## Stores -/

/-- Types that are joined have a common type. -/
theorem promotes_of_discard {left right : Ty} {result : PUnit}
    (hjoin : discard (join left right span) = .ok result) : (left.promote? right).isSome := by
  simp only [discard, join] at hjoin
  split at hjoin
  next ty hpromote => rw [Ty.promote_eq_ok_iff.mp hpromote, Option.isSome_some]
  next => cases hjoin

/-- A symbol without a type takes the type of the value that is stored in it. Every other place has
a type, which meets that of the value and which the value is converted to. -/
inductive StoreOutcome (span : Span) (target value : Expr) (before : Scope) :
    Stmt → Scope → Prop where
  | fresh {id : SymbolId} {ty : Ty} (hbinding : target.binding = some (.symbol id))
      (huntyped : (before.symbols.get? id).any fun var => var.ty.isNone)
      (hvalue : value.typeIn? before.symbols = some ty) :
      StoreOutcome span target value before (.assign span [target] value) (before.setType id ty)
  | settled {own ty : Ty} (hown : target.typeIn? before.symbols = some own)
      (hvalue : value.typeIn? before.symbols = some ty) (hmeets : (own.promote? ty).isSome) :
      StoreOutcome span target value before
        (.assign span [target] (value.convert before.symbols own)) before

theorem storeOutcome_of_reaches {target value : Expr} {stmt : Stmt}
    (hreach : Pass.Reaches (typeStore target value span) before stmt after) :
    StoreOutcome span target value before stmt after := by
  have hsettled {start : Scope} {ty : Ty} (hvalue : value.typeIn? start.symbols = some ty)
      (hreach : Pass.Reaches (apply fun table => do
        let lhs ← typeOf table target
        if lhs ≠ ty then discard (join lhs ty value.span)
        pure (.assign span [target] (value.convert table lhs))) start stmt after) :
      StoreOutcome span target value start stmt after := by
    simp only [reaches_apply, bind_eq_ok, typeOf_eq_ok] at hreach
    obtain ⟨⟨own, hown, hstmt⟩, rfl⟩ := hreach
    split at hstmt
    next =>
      simp only [bind_eq_ok, pure_eq_ok] at hstmt
      obtain ⟨_, hjoin, rfl⟩ := hstmt
      exact .settled hown hvalue (promotes_of_discard hjoin)
    next heq =>
      obtain rfl := Decidable.not_not.mp heq
      obtain rfl := pure_eq_ok.mp hstmt
      exact .settled hown hvalue (by simp)
  simp only [typeStore, Pass.reaches_bind, Pass.reaches_get, reaches_apply, typeOf_eq_ok] at hreach
  obtain ⟨_, _, ⟨rfl, rfl⟩, ty, _, ⟨hvalue, rfl⟩, hreach⟩ := hreach
  split at hreach
  next id hbinding =>
    split at hreach
    next huntyped =>
      simp only [Pass.reaches_bind, Pass.reaches_modify, Pass.reaches_pure] at hreach
      obtain ⟨_, _, rfl, rfl, rfl⟩ := hreach
      exact .fresh hbinding huntyped hvalue
    next => exact hsettled hvalue hreach
  next => exact hsettled hvalue hreach

/-- A loop target takes the elements of an iterable as a place takes a value. -/
inductive BindOutcome (target : Expr) (element : Ty) (before : Scope) : Scope → Prop where
  | fresh {id : SymbolId} (hbinding : target.binding = some (.symbol id))
      (huntyped : (before.symbols.get? id).any fun var => var.ty.isNone) :
      BindOutcome target element before (before.setType id element)
  | settled {own : Ty} (hown : target.typeIn? before.symbols = some own)
      (hmeets : (own.promote? element).isSome) : BindOutcome target element before before

theorem bindOutcome_of_reaches {target : Expr} {element : Ty} {result : Unit}
    (hreach : Pass.Reaches (bindElement target element) before result after) :
    BindOutcome target element before after := by
  have hsettled {start : Scope} (hreach : Pass.Reaches (apply fun table => do
        let current ← typeOf table target
        if current ≠ element then discard (join current element target.span)) start result after) :
      BindOutcome target element start after := by
    simp only [reaches_apply, bind_eq_ok, typeOf_eq_ok] at hreach
    obtain ⟨⟨own, hown, hjoin⟩, rfl⟩ := hreach
    split at hjoin
    next => exact .settled hown (promotes_of_discard hjoin)
    next heq =>
      obtain rfl := Decidable.not_not.mp heq
      exact .settled hown (by simp)
  simp only [bindElement, Pass.reaches_bind, Pass.reaches_get] at hreach
  obtain ⟨_, _, ⟨rfl, rfl⟩, hreach⟩ := hreach
  split at hreach
  next id hbinding =>
    split at hreach
    next huntyped =>
      obtain rfl := Pass.reaches_modify.mp hreach
      exact .fresh hbinding huntyped
    next => exact hsettled hreach
  next => exact hsettled hreach

/-- A run of stores visits one target after the other and stores the next element in each, until
there are no more targets or no more elements. -/
inductive StoreRun (setting : Setting) (span : Span) :
    List Expr → List Expr → Scope → List Stmt → Scope → Prop where
  | done {targets elements : List Expr} {scope : Scope} (hdone : targets = [] ∨ elements = []) :
      StoreRun setting span targets elements scope [] scope
  | store {place target element : Expr} {places elements : List Expr} {stmt : Stmt}
      {stmts : List Stmt} {before first second after : Scope}
      (htarget : Pass.Reaches (inferExpr setting place) before target first)
      (hstore : Pass.Reaches (typeStore target element span) first stmt second)
      (hrest : StoreRun setting span places elements second stmts after) :
      StoreRun setting span (place :: places) (element :: elements) before (stmt :: stmts) after

theorem storeRun_of_reaches {targets elements : List Expr} {stmts : List Stmt}
    (hreach : Pass.Reaches (storeAll setting span targets elements) before stmts after) :
    StoreRun setting span targets elements before stmts after := by
  induction targets generalizing elements stmts before with
  | nil =>
      simp only [storeAll, Pass.reaches_pure] at hreach
      obtain ⟨rfl, rfl⟩ := hreach
      exact .done (.inl rfl)
  | cons target targets ih =>
      cases elements with
      | nil =>
          simp only [storeAll, Pass.reaches_pure] at hreach
          obtain ⟨rfl, rfl⟩ := hreach
          exact .done (.inr rfl)
      | cons element elements =>
          simp only [storeAll, Pass.reaches_bind, Pass.reaches_pure] at hreach
          obtain ⟨_, _, htarget, _, _, hstore, _, _, hrest, rfl, rfl⟩ := hreach
          exact .store htarget hstore (ih hrest)

/-! ## Assignments -/

theorem exists_unpack {targets : List Expr} {value : Expr} {stmts : List Stmt}
    (hreach : Pass.Reaches (unpack setting span targets value) before stmts after) :
    ∃ elements, unpackedSize value before.symbols = .ok targets.length ∧
      unpackedElements setting value before.symbols = .ok elements ∧
      Pass.Reaches (storeAll setting span targets elements) before stmts after := by
  simp only [unpack, Pass.reaches_bind, reaches_apply] at hreach
  obtain ⟨size, _, ⟨hsize, rfl⟩, hreach⟩ := hreach
  split at hreach
  next => exact absurd hreach not_reaches_refuse
  next hlength =>
    simp only [Pass.reaches_bind, reaches_apply] at hreach
    obtain ⟨elements, _, ⟨helements, rfl⟩, hstores⟩ := hreach
    exact ⟨elements, Decidable.not_not.mp hlength ▸ hsize, helements, hstores⟩

/-- What an assignment stores: its value in a single place, or the elements that the value is
unpacked into. -/
inductive AssignedParts (setting : Setting) (targets : List Expr) (value : Expr)
    (table : SymbolTable) : List Expr → Prop where
  | whole : AssignedParts setting targets value table [value]
  | elements {elements : List Expr}
      (hsize : unpackedSize value table = .ok (Stmt.unpackedTargets targets).length)
      (helements : unpackedElements setting value table = .ok elements) :
      AssignedParts setting targets value table elements

theorem exists_inferAssign {targets : List Expr} {value : Expr} {stmts : List Stmt}
    (hreach : Pass.Reaches (inferAssign setting span targets value) before stmts after) :
    ∃ elements, AssignedParts setting targets value before.symbols elements ∧
      Pass.Reaches (storeAll setting span (Stmt.unpackedTargets targets) elements) before stmts
        after := by
  have hunpack (hreach : Pass.Reaches (unpack setting span (Stmt.unpackedTargets targets) value)
      before stmts after) : ∃ elements,
      AssignedParts setting targets value before.symbols elements ∧
      Pass.Reaches (storeAll setting span (Stmt.unpackedTargets targets) elements) before stmts
        after := by
    obtain ⟨elements, hsize, helements, hstores⟩ := exists_unpack hreach
    exact ⟨elements, .elements hsize helements, hstores⟩
  rcases targets with _ | ⟨target, _ | ⟨other, targets⟩⟩
  · exact hunpack hreach
  · cases target with
    | tuple | list => exact hunpack hreach
    | _ => exact ⟨[value], .whole, hreach⟩
  · simp only [inferAssign] at hreach
    simp only [Stmt.unpackedTargets] at hunpack ⊢
    exact hunpack hreach

/-! ## Results -/

/-- A return statement makes the result `void`, or widens it by the type of its value. -/
inductive ReturnOutcome (span : Span) (before : Scope) : Option Expr → Stmt → Scope → Prop where
  | nothing {value : Option Expr}
      (hresult : ∀ {found}, before.resultType? = some found → found = .void) :
      ReturnOutcome span before value (.ret span none) (before.setType resultSlot .void)
  | value {value : Expr} {ty widened : Ty} {note : Note}
      (hvalue : value.typeIn? before.symbols = some ty)
      (hfirst : before.resultType? = none → widened = ty)
      (hlater : ∀ {found}, before.resultType? = some found →
        join found ty value.span = .ok widened) :
      ReturnOutcome span before (some value)
        (.ret span (some (.deferredCoercion note value resultSlot)))
        (before.setType resultSlot widened)

theorem returnOutcome_of_nothing {value : Option Expr} {stmt : Stmt}
    (hreach : Pass.Reaches (returnNothing span) before stmt after) :
    ReturnOutcome span before value stmt after := by
  simp only [returnNothing, Pass.reaches_bind, Pass.reaches_get] at hreach
  obtain ⟨_, _, ⟨rfl, rfl⟩, hreach⟩ := hreach
  split at hreach
  next hnone =>
    simp only [Pass.reaches_bind, Pass.reaches_modify, Pass.reaches_pure] at hreach
    obtain ⟨_, _, rfl, rfl, rfl⟩ := hreach
    refine .nothing fun hfound => ?_
    cases hnone.symm.trans hfound
  next hvoid =>
    simp only [Pass.reaches_bind, Pass.reaches_modify, Pass.reaches_pure] at hreach
    obtain ⟨_, _, rfl, rfl, rfl⟩ := hreach
    exact .nothing fun hfound => Option.some.inj (hfound.symm.trans hvoid)
  next => exact absurd hreach not_reaches_refuse

theorem returnOutcome_of_value {value : Expr} {stmt : Stmt}
    (hreach : Pass.Reaches (returnValue span value) before stmt after) :
    ReturnOutcome span before (some value) stmt after := by
  simp only [returnValue, Pass.reaches_bind, Pass.reaches_get, reaches_apply,
    typeOf_eq_ok] at hreach
  obtain ⟨ty, _, ⟨hvalue, rfl⟩, _, _, ⟨rfl, rfl⟩, hreach⟩ := hreach
  split at hreach
  next hnone =>
    simp only [pure_bind, Pass.reaches_bind, Pass.reaches_modify, Pass.reaches_pure] at hreach
    obtain ⟨_, _, rfl, rfl, rfl⟩ := hreach
    refine .value hvalue (fun _ => rfl) fun hfound => ?_
    cases hnone.symm.trans hfound
  next current hsome =>
    simp only [Pass.reaches_bind, reaches_apply, Pass.reaches_modify, Pass.reaches_pure] at hreach
    obtain ⟨widened, _, ⟨hjoin, rfl⟩, _, _, rfl, rfl, rfl⟩ := hreach
    refine .value hvalue (fun hnone => ?_) fun hfound => ?_
    · cases hsome.symm.trans hnone
    · cases hsome.symm.trans hfound
      exact hjoin

theorem returnOutcome_of_reaches {value : Option Expr} {stmt : Stmt}
    (hreach : Pass.Reaches (inferReturn span value) before stmt after) :
    ReturnOutcome span before value stmt after := by
  cases value with
  | none => exact returnOutcome_of_nothing hreach
  | some value =>
      simp only [inferReturn, Pass.reaches_bind, Pass.reaches_get] at hreach
      obtain ⟨_, _, ⟨rfl, rfl⟩, hreach⟩ := hreach
      split at hreach
      · exact returnOutcome_of_nothing hreach
      · exact returnOutcome_of_value hreach

/-- The result settles at the type that was found for it, unless a declared type widens it. -/
theorem settled_of_settleResult {declared : Option Ty} {ret : Ty}
    (hreach : Pass.Reaches (settleResult declared span) before ret after) :
    after = before.setType resultSlot ret ∧ ∀ {found}, before.resultType? = some found →
      ret = found ∨ ∃ declared, join declared found span = .ok ret := by
  have hset {start : Scope} {ty : Ty} (hreach : Pass.Reaches (do
      modify fun scope => scope.setType resultSlot ty
      pure ty) start ret after) : ret = ty ∧ after = start.setType resultSlot ret := by
    simp only [Pass.reaches_bind, Pass.reaches_modify, Pass.reaches_pure] at hreach
    obtain ⟨_, _, rfl, rfl, rfl⟩ := hreach
    exact ⟨rfl, rfl⟩
  simp only [settleResult, Pass.reaches_bind, Pass.reaches_get] at hreach
  obtain ⟨_, _, ⟨rfl, rfl⟩, hreach⟩ := hreach
  split at hreach
  iterate 2
    next hnone =>
      refine ⟨(hset hreach).2, fun hfound => ?_⟩
      cases hnone.symm.trans hfound
  next hsome =>
    split at hreach
    next =>
      obtain ⟨rfl, rfl⟩ := hset hreach
      exact ⟨rfl, fun hfound => .inl (Option.some.inj (hsome.symm.trans hfound))⟩
    next =>
      obtain ⟨_, _, happly, hsettle⟩ := Pass.reaches_bind.mp hreach
      obtain ⟨hjoin, rfl⟩ := reaches_apply.mp happly
      obtain ⟨rfl, rfl⟩ := hset hsettle
      refine ⟨rfl, fun hfound => .inr ?_⟩
      cases hsome.symm.trans hfound
      exact ⟨_, hjoin⟩
  next hsome =>
    obtain ⟨rfl, rfl⟩ := hset hreach
    exact ⟨rfl, fun hfound => .inl (Option.some.inj (hsome.symm.trans hfound))⟩

/-! ## Loops -/

variable {results : List Stmt}

/-- Only a loop over a plain name and without an `else` clause is visited. -/
theorem exists_forIn {target iter : Expr} {body orelse : List Stmt} {index : Option Expr}
    (hreach : Pass.Reaches (inferStmt setting (.forIn span target iter body orelse index)) before
      results after) :
    orelse = [] ∧ target.asName.isSome ∧ ∃ iter' first element target' second third body',
      Pass.Reaches (inferExpr setting iter) before iter' first ∧
      elementType setting iter' first.symbols = .ok element ∧
      Pass.Reaches (inferExpr setting target) first target' second ∧
      Pass.Reaches (bindElement target' element) second () third ∧
      Pass.Reaches (inferBody setting body) third body' after ∧
      results = [.forIn span target' iter' body' [] index] := by
  simp only [inferStmt] at hreach
  split at hreach
  next => exact absurd hreach not_reaches_refuse
  next hempty =>
    split at hreach
    next => exact absurd hreach not_reaches_refuse
    next hunnamed =>
      have hname : target.asName.isSome := by
        simpa [Option.isSome_iff_ne_none] using hunnamed
      simp only [Pass.reaches_bind, reaches_apply, Pass.reaches_pure] at hreach
      obtain ⟨iter', first, hiter, element, _, ⟨helement, rfl⟩, target', second, htarget, _, third,
        hbind, body', _, hbody, rfl, rfl⟩ := hreach
      exact ⟨by simpa using hempty, hname, iter', _, element, target', second, third, body', hiter,
        helement, htarget, hbind, hbody, rfl⟩

/-- Only a loop without an `else` clause is visited. -/
theorem exists_whileLoop {test : Expr} {body orelse : List Stmt}
    (hreach : Pass.Reaches (inferStmt setting (.whileLoop span test body orelse)) before results
      after) :
    orelse = [] ∧ ∃ test' middle body', Pass.Reaches (inferTest setting test) before test' middle ∧
      Pass.Reaches (inferBody setting body) middle body' after ∧
      results = [.whileLoop span test' body' []] := by
  simp only [inferStmt] at hreach
  split at hreach
  next => exact absurd hreach not_reaches_refuse
  next hempty =>
    simp only [Pass.reaches_bind, Pass.reaches_pure] at hreach
    obtain ⟨test', middle, htest, body', _, hbody, rfl, rfl⟩ := hreach
    exact ⟨by simpa using hempty, test', middle, body', htest, hbody, rfl⟩

end KernelFront.Inference
