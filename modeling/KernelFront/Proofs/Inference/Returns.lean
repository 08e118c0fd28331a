import KernelFront.Proofs.Chains
import KernelFront.Proofs.Inference.Extension
import KernelFront.Proofs.Inference.Soundness

/-! # The result type widens

Every value that a function returns meets the result type of that moment, and the result type that
comes out goes on to meet the next one and, in the end, the declared type. So each returned value
was widened along a chain of promotions, and whether its conversion to the final result type is a
promotion can be read off the two types.
-/

namespace KernelFront

namespace Inference

open Scope (resultSlot)

variable {setting : Setting} {span : Span} {before middle after : Scope}

/-! ## Widening of the result type -/

/-- Inference went on to a later scope, and a result type that was known was widened. -/
structure Widened (before after : Scope) : Prop where
  grows : before.Grows after
  result : ∀ {ty}, before.resultType? = some ty →
    ∃ ret, after.resultType? = some ret ∧ ty.WidensAlong ret

theorem Widened.refl (scope : Scope) : Widened scope scope :=
  ⟨.refl scope, fun hty => ⟨_, hty, .refl⟩⟩

theorem Widened.trans (hfirst : Widened before middle) (hsecond : Widened middle after) :
    Widened before after := by
  refine ⟨hfirst.grows.trans hsecond.grows, fun hty => ?_⟩
  obtain ⟨found, hfound, hwidens⟩ := hfirst.result hty
  obtain ⟨ret, hret, hlater⟩ := hsecond.result hfound
  exact ⟨ret, hret, hwidens.trans hlater⟩

theorem Scope.Extends.widened (hextends : before.Extends after) : Widened before after :=
  ⟨hextends.grows, fun hty => ⟨_, hextends.typeOf? hty, .refl⟩⟩

/-- A binding without a type gets one. -/
theorem widened_untyped {scope : Scope} {id : SymbolId} {ty : Ty}
    (huntyped : (scope.symbols.get? id).any fun var => var.ty.isNone) :
    Widened scope (scope.setType id ty) := by
  refine ⟨grows_untyped huntyped, fun {found} hfound => ⟨found, ?_, .refl⟩⟩
  have hother : resultSlot ≠ id := by
    rintro rfl
    obtain ⟨var, hvar, hvarTy⟩ := Option.bind_eq_some_iff.mp hfound
    rw [hvar, Option.any_some, hvarTy] at huntyped
    cases huntyped
  exact (SymbolTable.typeOf?_setType_of_ne _ hother).trans hfound

/-- The result type is set to one that it widens to. -/
theorem widened_setResult {scope : Scope} {ty : Ty}
    (hwidens : ∀ {found}, scope.resultType? = some found → found.Widens ty) :
    Widened scope (scope.setType resultSlot ty) := by
  have hvoid (hfound : scope.resultType? = some .void) : ty = .void := by
    cases hwidens hfound with
    | refl => rfl
    | object hne => exact absurd rfl hne
    | element hs => cases hs
  refine ⟨Scope.grows_setResult hvoid, fun hfound => ⟨ty, ?_, .single (hwidens hfound)⟩⟩
  obtain ⟨var, hvar, -⟩ := Option.bind_eq_some_iff.mp hfound
  exact SymbolTable.typeOf?_setType_self hvar _

/-- Every step of inference widens the result type, if it is known. -/
theorem followed_widened (setting : Setting) : FollowedOn setting Widened where
  refl := .refl
  trans := .trans
  name hreach := (extends_visitName hreach).widened
  untyped := widened_untyped
  result := widened_setResult

/-! ## Returned values -/

/-- A returned value waits behind a conversion to a result type that its own type was widened to. -/
def Rises (table : SymbolTable) (value : Expr) : Prop :=
  ∃ note node ty ret, value = .deferredCoercion note node resultSlot ∧
    settledType? table node = some ty ∧ table.typeOf? resultSlot = some ret ∧ ty.WidensAlong ret

theorem Rises.mono {value : Expr} (hwidened : Widened before after)
    (hrises : Rises before.symbols value) : Rises after.symbols value := by
  obtain ⟨note, node, ty, found, rfl, hty, hfound, hwidens⟩ := hrises
  obtain ⟨ret, hret, hlater⟩ := hwidened.result hfound
  exact ⟨note, node, ty, ret, rfl, hwidened.grows.settledType? hty, hret, hwidens.trans hlater⟩

/-- Visited statements widened the result type, and what they return rises to it. -/
structure Returning (before : Scope) (results : List Stmt) (after : Scope) : Prop where
  widened : Widened before after
  rises : ∀ {span value}, .ret span (some value) ∈ Stmt.nestedBody results →
    Rises after.symbols value

theorem Returning.anonymous {results : List Stmt} (hreturning : Returning before results after)
    (hanonymous : before.Anonymous) : after.Anonymous :=
  hreturning.widened.grows.anonymous hanonymous

theorem Returning.append {first second : List Stmt} (hfirst : Returning before first middle)
    (hsecond : Returning middle second after) : Returning before (first ++ second) after := by
  refine ⟨hfirst.widened.trans hsecond.widened, fun {span value} hret => ?_⟩
  rw [Stmt.nestedBody_append] at hret
  rcases List.mem_append.mp hret with hret | hret
  · exact (hfirst.rises hret).mono hsecond.widened
  · exact hsecond.rises hret

theorem Returning.nil (scope : Scope) : Returning scope [] scope :=
  ⟨.refl scope, fun hret => nomatch hret⟩

/-- What is visited before the statements returns nothing. -/
theorem Returning.of_widened {results : List Stmt} (hwidened : Widened before middle)
    (hreturning : Returning middle results after) : Returning before results after :=
  ⟨hwidened.trans hreturning.widened, hreturning.rises⟩

/-- A statement around visited statements returns what they return. -/
theorem Returning.around {results : List Stmt} {stmt : Stmt}
    (hinner : stmt.nested = stmt :: Stmt.nestedBody results)
    (hstmt : ∀ span value, stmt ≠ .ret span (some value))
    (hreturning : Returning before results after) : Returning before [stmt] after := by
  refine ⟨hreturning.widened, fun {span value} hret => ?_⟩
  simp only [Stmt.nestedBody, List.append_nil, hinner] at hret
  rcases List.mem_cons.mp hret with hself | hret
  · exact absurd hself.symm (hstmt span value)
  · exact hreturning.rises hret

/-- Statements that return no value. -/
theorem Widened.returning {results : List Stmt} (hwidened : Widened before after)
    (hnone : ∀ {span value}, .ret span (some value) ∉ Stmt.nestedBody results) :
    Returning before results after :=
  ⟨hwidened, fun hret => absurd hret hnone⟩

/-! ## Stores -/

/-- A store is an assignment. -/
theorem assign_of_typeStore {target value : Expr} {stmt : Stmt}
    (hreach : Pass.Reaches (typeStore target value span) before stmt after) :
    ∃ stored, stmt = .assign span [target] stored := by
  cases storeOutcome_of_reaches hreach with
  | fresh | settled => exact ⟨_, rfl⟩

theorem ret_notMem_storeAll {targets elements : List Expr} {stmts : List Stmt}
    (hreach : Pass.Reaches (storeAll setting span targets elements) before stmts after)
    {place : Span} {value : Option Expr} : .ret place value ∉ Stmt.nestedBody stmts := by
  replace hreach := storeRun_of_reaches hreach
  induction hreach with
  | done => exact List.not_mem_nil
  | store _ hstore _ ih =>
      obtain ⟨stored, rfl⟩ := assign_of_typeStore hstore
      simpa [Stmt.nestedBody, Stmt.nested] using ih

theorem returning_storeAll {targets elements : List Expr} {stmts : List Stmt}
    (hreach : Pass.Reaches (storeAll setting span targets elements) before stmts after) :
    Returning before stmts after :=
  ((followed_widened setting).storeAll hreach).returning (ret_notMem_storeAll hreach)

theorem returning_inferAssign {targets : List Expr} {value : Expr} {stmts : List Stmt}
    (hreach : Pass.Reaches (inferAssign setting span targets value) before stmts after) :
    Returning before stmts after := by
  obtain ⟨_, -, hstores⟩ := exists_inferAssign hreach
  exact returning_storeAll hstores

/-! ## Returns -/

/-- The value of a return statement meets the result type so far. -/
theorem returning_inferReturn (setting : Setting) {index : Ty} {value : Option Expr} {stmt : Stmt}
    (hanonymous : before.Anonymous)
    (hvalue : Settled index before.symbols (Expr.nodesAll value.toList))
    (hreach : Pass.Reaches (inferReturn span value) before stmt after) :
    Returning before [stmt] after := by
  have hwidened := (followed_widened setting).inferReturn hreach
  cases returnOutcome_of_reaches hreach with
  | nothing => exact hwidened.returning (by simp [Stmt.nestedBody, Stmt.nested])
  | @value value ty widened note hty hfirst hlater =>
      simp only [Option.toList_some, Expr.nodesAll, List.append_nil] at hvalue
      refine ⟨hwidened, fun {other returned} hret => ?_⟩
      obtain ⟨rfl, rfl⟩ : other = span ∧ returned = .deferredCoercion note value resultSlot := by
        simpa [Stmt.nestedBody, Stmt.nested] using hret
      have hwidens : ty.Widens widened := by
        cases hresult : before.resultType? with
        | none => exact hfirst hresult ▸ .refl ty
        | some found => exact (widens_of_join (hlater hresult)).2
      obtain ⟨var, hvar, -⟩ := hanonymous
      refine ⟨note, value, ty, widened, rfl, hwidened.grows.settledType? ?_, ?_, .single hwidens⟩
      · rw [settledType?_eq hvalue.placed, hty]
      · exact SymbolTable.typeOf?_setType_self hvar _

/-! ## Bodies -/

mutual

/-- Visiting a statement widens the result type to what the statement returns. -/
theorem returning_inferStmt {stmt : Stmt} {results : List Stmt} {before after : Scope}
    (hanonymous : before.Anonymous)
    (hreach : Pass.Reaches (inferStmt setting stmt) before results after) :
    Returning before results after := by
  cases stmt with
  | assign span targets value =>
      simp only [inferStmt, Pass.reaches_bind] at hreach
      obtain ⟨value', middle, hvalue, hassign⟩ := hreach
      exact (returning_inferAssign hassign).of_widened ((followed_widened setting).inferExpr hvalue)
  | augAssign span target op value =>
      simp only [inferStmt, Pass.reaches_bind] at hreach
      obtain ⟨value', middle, hvalue, hstore⟩ := hreach
      exact (returning_storeAll hstore).of_widened ((followed_widened setting).inferExpr hvalue)
  | forIn span target iter body orelse index =>
      obtain ⟨rfl, -, _, _, _, _, _, _, _, hiter, -, htarget, hbind, hbody, rfl⟩ :=
        exists_forIn hreach
      have hiter := (followed_widened setting).inferExpr hiter
      have htarget := (followed_widened setting).inferExpr htarget
      have hbind := (followed_widened setting).bindElement hbind
      have hwidened := hiter.trans (htarget.trans hbind)
      have hbody := returning_inferBody (hwidened.grows.anonymous hanonymous) hbody
      refine (hbody.of_widened hwidened).around ?_ nofun
      simp only [Stmt.nested, Stmt.nestedBody, List.append_nil]
  | whileLoop span test body orelse =>
      obtain ⟨rfl, _, _, _, htest, hbody, rfl⟩ := exists_whileLoop hreach
      have htest := (followed_widened setting).inferTest htest
      have hbody := returning_inferBody (htest.grows.anonymous hanonymous) hbody
      refine (hbody.of_widened htest).around ?_ nofun
      simp only [Stmt.nested, Stmt.nestedBody, List.append_nil]
  | branch span test body orelse =>
      simp only [inferStmt, Pass.reaches_bind, Pass.reaches_pure] at hreach
      obtain ⟨test', first, htest, body', second, hbody, orelse', _, horelse, rfl, rfl⟩ := hreach
      have htest := (followed_widened setting).inferTest htest
      have hfirst := htest.grows.anonymous hanonymous
      have hbody := returning_inferBody hfirst hbody
      have horelse := returning_inferBody (hbody.anonymous hfirst) horelse
      refine ((hbody.append horelse).of_widened htest).around ?_ nofun
      simp only [Stmt.nested, Stmt.nestedBody_append]
  | ret span value =>
      simp only [inferStmt, Pass.reaches_bind, Pass.reaches_pure] at hreach
      obtain ⟨value', middle, hvalue, stmt, _, hreturn, rfl, rfl⟩ := hreach
      have hmiddle := (visited_inferPart hvalue).grows.anonymous hanonymous
      have hparts := (visited_inferPart hvalue).holds hanonymous
      have hreturn := returning_inferReturn setting hmiddle hparts hreturn
      exact hreturn.of_widened ((followed_widened setting).inferPart hvalue)
  | expr span value =>
      simp only [inferStmt, Pass.reaches_bind, Pass.reaches_pure] at hreach
      obtain ⟨value', middle, hvalue, rfl, rfl⟩ := hreach
      have hwidened := (followed_widened setting).inferExpr hvalue
      exact hwidened.returning (by simp [Stmt.nestedBody, Stmt.nested])
  | print span values dest newline =>
      simp only [inferStmt, Pass.reaches_bind, Pass.reaches_pure] at hreach
      obtain ⟨values', middle, hvalues, dest', _, hdest, rfl, rfl⟩ := hreach
      have hvalues := (followed_widened setting).inferPrinted hvalues
      have hwidened := hvalues.trans ((followed_widened setting).inferPart hdest)
      exact hwidened.returning (by simp [Stmt.nestedBody, Stmt.nested])
  | global => simp only [inferStmt, not_reaches_refuse] at hreach
  | _ =>
      simp only [inferStmt, Pass.reaches_pure] at hreach
      obtain ⟨rfl, rfl⟩ := hreach
      exact (Widened.refl _).returning (by simp [Stmt.nestedBody, Stmt.nested])
termination_by structural stmt

/-- Visiting a body widens the result type to what the statements return. -/
theorem returning_inferBody {body results : List Stmt} {before after : Scope}
    (hanonymous : before.Anonymous)
    (hreach : Pass.Reaches (inferBody setting body) before results after) :
    Returning before results after := by
  cases body with
  | nil =>
      simp only [inferBody, Pass.reaches_pure] at hreach
      obtain ⟨rfl, rfl⟩ := hreach
      exact .nil after
  | cons stmt body =>
      simp only [inferBody, Pass.reaches_bind, Pass.reaches_pure] at hreach
      obtain ⟨stmts, middle, hstmts, rest, _, hrest, rfl, rfl⟩ := hreach
      have hstmts := returning_inferStmt hanonymous hstmts
      exact hstmts.append (returning_inferBody (hstmts.anonymous hanonymous) hrest)
termination_by structural body

end

/-! ## Functions -/

/-- The type of a returned value before it is converted to the type of the result. -/
def ownType? (table : SymbolTable) : Expr → Option Ty
  | .deferredCoercion _ node _ => node.typeIn? table
  | _ => none

end Inference

/-- The values of the return statements of a function, at every depth. -/
def FunctionDef.returned (func : FunctionDef) : List Expr :=
  func.statements.filterMap fun
    | .ret _ value => value
    | _ => none

theorem FunctionDef.mem_returned {func : FunctionDef} {value : Expr} :
    value ∈ func.returned ↔ ∃ span, .ret span (some value) ∈ func.statements := by
  unfold returned
  rw [List.mem_filterMap]
  constructor
  · rintro ⟨stmt, hstmt, hvalue⟩
    split at hvalue
    next span _ => exact ⟨span, hvalue ▸ hstmt⟩
    next => cases hvalue
  · rintro ⟨span, hret⟩
    exact ⟨_, hret, rfl⟩

/-- The result type of a function is the promotion of each type it returns with itself, unless it is
made of pointers where that type is made of truth values. -/
theorem FunctionDef.returned_promotes_iff {setting : Inference.Setting} {func : FunctionDef}
    {signature : Signature} {inferred : Inferred}
    (hinfer : Pass.Succeeds (Inference.inferFunction setting func signature) inferred) :
    ∀ value ∈ inferred.func.returned, ∃ ty,
      Inference.ownType? inferred.symbols value = some ty ∧
      (ty.promote inferred.signature.ret = .ok inferred.signature.ret ↔
        ¬ ty.Overshoots inferred.signature.ret) := by
  unfold Inference.inferFunction at hinfer
  split at hinfer
  · exact absurd hinfer Pass.not_succeeds_throw
  · simp only [Pass.succeeds_bind] at hinfer
    obtain ⟨⟨⟨body, ret⟩, scope⟩, hrun, _, _, hinferred⟩ := hinfer
    obtain rfl := Pass.succeeds_pure.mp hinferred
    change Pass.Reaches _ _ _ _ at hrun
    simp only [Pass.reaches_bind, Pass.reaches_pure, Prod.mk.injEq] at hrun
    obtain ⟨_, middle, hbody, _, _, hret, ⟨rfl, rfl⟩, rfl⟩ := hrun
    have hanonymous := Inference.Scope.anonymous_ofFunction func signature.args
    have hbody := Inference.returning_inferBody hanonymous hbody
    have hslot := (Inference.visited_settleResult hret).holds (hbody.anonymous hanonymous)
    intro value hvalue
    obtain ⟨span, hvalue⟩ := FunctionDef.mem_returned.mp hvalue
    obtain ⟨note, node, ty, found, rfl, hty, hfound, hwidens⟩ :=
      (hbody.rises hvalue).mono ((Inference.followed_widened setting).settleResult hret)
    cases hslot.symm.trans hfound
    exact ⟨ty, Inference.typeIn?_of_settled hty, hwidens.promote_eq_ok_iff⟩

/-- A function whose result type goes from a truth value over an integer to a pointer. -/
def escalating : FunctionDef :=
  open Builder in
  function "escalating" ["b", "n", "p"]
    [branch (load "b") [ret (some (load "b"))] [],
      branch (load "b") [ret (some (load "n"))] [],
      ret (some (load "p"))]

theorem infer_escalating :
    ∃ inferred, Pass.Succeeds (Inference.inferFunction builtinsOnly escalating
        { args := [.bool, .int64, .pointer .float64] }) inferred ∧
      inferred.signature.ret = .pointer .float64 ∧
      inferred.func.returned.map (Inference.ownType? inferred.symbols) =
        [some .bool, some .int64, some (.pointer .float64)] := by
  obtain ⟨inferred, hinfer, htest⟩ : ∃ inferred, Pass.Succeeds (Inference.inferFunction builtinsOnly
      escalating { args := [.bool, .int64, .pointer .float64] }) inferred ∧
      (decide (inferred.signature.ret = .pointer .float64) &&
        decide (inferred.func.returned.map (Inference.ownType? inferred.symbols) =
          [some .bool, some .int64, some (.pointer .float64)])) = true :=
    Pass.exists_succeeds (fun _ _ => .host) (by decide +kernel)
  obtain ⟨hret, htypes⟩ := Bool.and_eq_true_iff.mp htest
  exact ⟨inferred, hinfer, of_decide_eq_true hret, of_decide_eq_true htypes⟩

/-- The integer is promoted to the pointer, and so is the pointer, but not the truth value. -/
theorem returned_promotes_iff_escalating :
    ∃ inferred, Pass.Succeeds (Inference.inferFunction builtinsOnly escalating
        { args := [.bool, .int64, .pointer .float64] }) inferred ∧
      inferred.func.returned.length = 3 ∧
      ∀ value ∈ inferred.func.returned, ∃ ty,
        Inference.ownType? inferred.symbols value = some ty ∧
        (ty.promote inferred.signature.ret = .ok inferred.signature.ret ↔
          ¬ ty.Overshoots inferred.signature.ret) := by
  obtain ⟨inferred, hinfer, _, htypes⟩ := infer_escalating
  refine ⟨inferred, hinfer, ?_, FunctionDef.returned_promotes_iff hinfer⟩
  simpa using congrArg List.length htypes

/-- The truth value that `escalating` returns early is converted to a pointer, though the two types
have no promotion. -/
theorem escalating_not_promotes :
    ¬ ∀ inferred, Pass.Succeeds (Inference.inferFunction builtinsOnly escalating
        { args := [.bool, .int64, .pointer .float64] }) inferred →
      ∀ value ∈ inferred.func.returned, ∀ ty,
        Inference.ownType? inferred.symbols value = some ty →
          ty.promote inferred.signature.ret = .ok inferred.signature.ret := by
  intro hall
  obtain ⟨inferred, hinfer, hret, htypes⟩ := infer_escalating
  obtain ⟨value, hvalue, hty⟩ : ∃ value ∈ inferred.func.returned,
      Inference.ownType? inferred.symbols value = some .bool := by
    rw [← List.mem_map, htypes]
    exact List.mem_cons_self
  have hpromote := hall inferred hinfer value hvalue .bool hty
  rw [hret, Ty.promote_eq_ok_iff] at hpromote
  exact absurd hpromote (by decide)

end KernelFront
