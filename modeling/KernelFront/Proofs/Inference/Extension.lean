import KernelFront.Inference.Function
import KernelFront.Proofs.Inference.Bodies
import KernelFront.Proofs.Promotion

/-! # What a visit does to the scope

Inference changes its scope in three ways: a name that means nothing yet gets a binding of its own,
a binding without a type gets one, and the result type is widened. So a relation of scopes that
holds across these steps holds across the visit of any body. Visits of expressions take only steps
of the first kind, which leave all bindings that were there as they are.
-/

namespace KernelFront.Inference

open Scope (resultSlot)

variable {setting : Setting} {span : Span}

/-! ## Relations across a visit -/

/-- A relation of scopes that can be followed through a visit: visits of names keep to it. -/
structure Followed (setting : Setting) (related : Scope → Scope → Prop) : Prop where
  refl : ∀ scope, related scope scope
  trans : ∀ {before middle after}, related before middle → related middle after →
    related before after
  name : ∀ {name access span before result after},
    Pass.Reaches (visitName setting name access span) before result after → related before after

variable {related : Scope → Scope → Prop}

mutual

/-- What visits of names keep to, a visit of an expression keeps to. -/
theorem Followed.inferExpr (hrelated : Followed setting related) {e result : Expr}
    {before after : Scope}
    (hreach : Pass.Reaches (inferExpr setting e) before result after) : related before after := by
  cases e with
  | name note id access =>
      simp only [Inference.inferExpr] at hreach
      exact hrelated.name hreach
  | const | ellipsis =>
      simp only [Inference.inferExpr, Pass.reaches_pure] at hreach
      obtain ⟨-, rfl⟩ := hreach
      exact hrelated.refl after
  | binOp note left op right =>
      simp only [Inference.inferExpr, Pass.reaches_bind, reaches_apply] at hreach
      obtain ⟨_, middle, hleft, _, _, hright, -, rfl⟩ := hreach
      exact hrelated.trans (hrelated.inferExpr hleft) (hrelated.inferExpr hright)
  | boolOp note op values =>
      obtain ⟨_, hvalues, -⟩ := reaches_boolOp hreach
      exact hrelated.inferAll hvalues
  | unaryOp note op operand =>
      simp only [Inference.inferExpr, Pass.reaches_bind, reaches_apply] at hreach
      obtain ⟨_, _, hoperand, -, rfl⟩ := hreach
      exact hrelated.inferExpr hoperand
  | compare note left ops comparators =>
      obtain ⟨_, _, middle, _, hleft, hright, -⟩ := reaches_compare hreach
      exact hrelated.trans (hrelated.inferExpr hleft) (hrelated.inferAll hright)
  | call note func args keywords =>
      simp only [Inference.inferExpr, Pass.reaches_bind] at hreach
      obtain ⟨_, first, hfunc, _, second, hargs, _, third, hkeywords, hcall⟩ := hreach
      obtain ⟨rfl, -⟩ := visited_typeCall hcall
      exact hrelated.trans (hrelated.inferExpr hfunc)
        (hrelated.trans (hrelated.inferAll hargs) (hrelated.inferKeywords hkeywords))
  | «attribute» note value attr access =>
      simp only [Inference.inferExpr, Pass.reaches_bind, reaches_apply] at hreach
      obtain ⟨_, _, hvalue, -, rfl⟩ := hreach
      exact hrelated.inferExpr hvalue
  | subscript note value selector access =>
      simp only [Inference.inferExpr, Pass.reaches_bind, reaches_apply] at hreach
      obtain ⟨_, middle, hvalue, _, _, hselector, -, rfl⟩ := hreach
      exact hrelated.trans (hrelated.inferExpr hvalue) (hrelated.inferExpr hselector)
  | index note value =>
      simp only [Inference.inferExpr, Pass.reaches_bind, reaches_apply] at hreach
      obtain ⟨_, _, hvalue, -, rfl⟩ := hreach
      exact hrelated.inferExpr hvalue
  | slice note lower upper step =>
      simp only [Inference.inferExpr, Pass.reaches_bind, Pass.reaches_pure] at hreach
      obtain ⟨_, first, hlower, _, second, hupper, _, _, hstep, -, rfl⟩ := hreach
      exact hrelated.trans (hrelated.inferPart hlower)
        (hrelated.trans (hrelated.inferPart hupper) (hrelated.inferPart hstep))
  | extSlice note dims =>
      simp only [Inference.inferExpr, Pass.reaches_bind, Pass.reaches_pure] at hreach
      obtain ⟨_, _, hdims, -, rfl⟩ := hreach
      exact hrelated.inferAll hdims
  | tuple note elts access =>
      simp only [Inference.inferExpr, Pass.reaches_bind, reaches_apply] at hreach
      obtain ⟨_, _, helts, -, rfl⟩ := hreach
      exact hrelated.inferAll helts
  | list note elts access =>
      simp only [Inference.inferExpr, Pass.reaches_bind, Pass.reaches_pure] at hreach
      obtain ⟨_, _, helts, -, rfl⟩ := hreach
      exact hrelated.inferAll helts
  | dict note keys values =>
      simp only [Inference.inferExpr, Pass.reaches_bind, reaches_apply] at hreach
      obtain ⟨_, middle, hkeys, _, _, hvalues, -, rfl⟩ := hreach
      exact hrelated.trans (hrelated.inferAll hkeys) (hrelated.inferAll hvalues)
  | _ => simp only [Inference.inferExpr, not_reaches_refuse] at hreach
termination_by structural e

theorem Followed.inferAll (hrelated : Followed setting related) {es results : List Expr}
    {before after : Scope}
    (hreach : Pass.Reaches (inferAll setting es) before results after) : related before after := by
  cases es with
  | nil =>
      simp only [Inference.inferAll, Pass.reaches_pure] at hreach
      obtain ⟨-, rfl⟩ := hreach
      exact hrelated.refl after
  | cons e es =>
      simp only [Inference.inferAll, Pass.reaches_bind, Pass.reaches_pure] at hreach
      obtain ⟨_, middle, he, _, _, hes, -, rfl⟩ := hreach
      exact hrelated.trans (hrelated.inferExpr he) (hrelated.inferAll hes)
termination_by structural es

theorem Followed.inferKeywords (hrelated : Followed setting related)
    {keywords results : List (String × Expr)} {before after : Scope}
    (hreach : Pass.Reaches (inferKeywords setting keywords) before results after) :
    related before after := by
  cases keywords with
  | nil =>
      simp only [Inference.inferKeywords, Pass.reaches_pure] at hreach
      obtain ⟨-, rfl⟩ := hreach
      exact hrelated.refl after
  | cons keyword keywords =>
      obtain ⟨name, e⟩ := keyword
      simp only [Inference.inferKeywords, Pass.reaches_bind, Pass.reaches_pure] at hreach
      obtain ⟨_, middle, he, _, _, hkeywords, -, rfl⟩ := hreach
      exact hrelated.trans (hrelated.inferExpr he) (hrelated.inferKeywords hkeywords)
termination_by structural keywords

theorem Followed.inferPart (hrelated : Followed setting related) {part result : Option Expr}
    {before after : Scope}
    (hreach : Pass.Reaches (inferPart setting part) before result after) :
    related before after := by
  cases part with
  | none =>
      simp only [Inference.inferPart, Pass.reaches_pure] at hreach
      obtain ⟨-, rfl⟩ := hreach
      exact hrelated.refl after
  | some e =>
      simp only [Inference.inferPart, Pass.reaches_bind, Pass.reaches_pure] at hreach
      obtain ⟨_, _, he, -, rfl⟩ := hreach
      exact hrelated.inferExpr he
termination_by structural part

end

theorem Followed.inferTest (hrelated : Followed setting related) {test result : Expr}
    {before after : Scope}
    (hreach : Pass.Reaches (inferTest setting test) before result after) :
    related before after := by
  simp only [Inference.inferTest, Pass.reaches_bind, reaches_apply] at hreach
  obtain ⟨_, _, htest, -, rfl⟩ := hreach
  exact hrelated.inferExpr htest

theorem Followed.inferPrinted (hrelated : Followed setting related) {values results : List Expr}
    {before after : Scope}
    (hreach : Pass.Reaches (inferPrinted setting values) before results after) :
    related before after := by
  induction values generalizing results before with
  | nil =>
      simp only [Inference.inferPrinted, Pass.reaches_pure] at hreach
      obtain ⟨-, rfl⟩ := hreach
      exact hrelated.refl after
  | cons value values ih =>
      simp only [Inference.inferPrinted, Pass.reaches_bind, reaches_apply,
        Pass.reaches_pure] at hreach
      obtain ⟨_, middle, hvalue, _, _, ⟨-, rfl⟩, _, _, hrest, -, rfl⟩ := hreach
      exact hrelated.trans (hrelated.inferExpr hvalue) (ih hrest)

/-! ## Relations across bodies -/

/-- A relation of scopes that can be followed through a body: the steps that statements take keep to
it as well. -/
structure FollowedOn (setting : Setting) (related : Scope → Scope → Prop) : Prop
    extends Followed setting related where
  untyped : ∀ {scope : Scope} {id : SymbolId} {ty : Ty},
    ((scope.symbols.get? id).any fun var => var.ty.isNone) → related scope (scope.setType id ty)
  result : ∀ {scope : Scope} {ty : Ty},
    (∀ {found}, scope.resultType? = some found → found.Widens ty) →
      related scope (scope.setType resultSlot ty)

theorem widens_of_join {left right joined : Ty} (hjoin : join left right span = .ok joined) :
    left.Widens joined ∧ right.Widens joined := by
  unfold join at hjoin
  split at hjoin
  next ty hpromote =>
    cases hjoin
    have hjoins := Ty.joins_promote? (Ty.promote_eq_ok_iff.mp hpromote)
    exact ⟨hjoins.left, hjoins.right⟩
  next => cases hjoin

namespace FollowedOn

variable (hrelated : FollowedOn setting related) {before after : Scope}
include hrelated

theorem typeStore {target value : Expr} {stmt : Stmt}
    (hreach : Pass.Reaches (typeStore target value span) before stmt after) :
    related before after := by
  cases storeOutcome_of_reaches hreach with
  | fresh _ huntyped => exact hrelated.untyped huntyped
  | settled => exact hrelated.refl before

theorem storeAll {targets elements : List Expr} {stmts : List Stmt}
    (hreach : Pass.Reaches (storeAll setting span targets elements) before stmts after) :
    related before after := by
  replace hreach := storeRun_of_reaches hreach
  induction hreach with
  | done => exact hrelated.refl _
  | store htarget hstore _ ih =>
      exact hrelated.trans (hrelated.inferExpr htarget)
        (hrelated.trans (hrelated.typeStore hstore) ih)

theorem inferAssign {targets : List Expr} {value : Expr} {stmts : List Stmt}
    (hreach : Pass.Reaches (inferAssign setting span targets value) before stmts after) :
    related before after := by
  obtain ⟨_, -, hstores⟩ := exists_inferAssign hreach
  exact hrelated.storeAll hstores

theorem bindElement {target : Expr} {element : Ty} {result : Unit}
    (hreach : Pass.Reaches (bindElement target element) before result after) :
    related before after := by
  cases bindOutcome_of_reaches hreach with
  | fresh _ huntyped => exact hrelated.untyped huntyped
  | settled => exact hrelated.refl before

theorem inferReturn {value : Option Expr} {stmt : Stmt}
    (hreach : Pass.Reaches (inferReturn span value) before stmt after) :
    related before after := by
  cases returnOutcome_of_reaches hreach with
  | nothing hresult => exact hrelated.result fun hfound => hresult hfound ▸ .refl .void
  | value _ _ hlater => exact hrelated.result fun hfound => (widens_of_join (hlater hfound)).1

theorem settleResult {declared : Option Ty} {ret : Ty}
    (hreach : Pass.Reaches (settleResult declared span) before ret after) :
    related before after := by
  obtain ⟨rfl, hsettled⟩ := settled_of_settleResult hreach
  refine hrelated.result fun hfound => ?_
  rcases hsettled hfound with rfl | ⟨declared, hjoin⟩
  · exact .refl ret
  · exact (widens_of_join hjoin).2

end FollowedOn

mutual

/-- What the steps of inference keep to, a visit of a statement keeps to. -/
theorem FollowedOn.inferStmt (hrelated : FollowedOn setting related) {stmt : Stmt}
    {results : List Stmt} {before after : Scope}
    (hreach : Pass.Reaches (inferStmt setting stmt) before results after) :
    related before after := by
  cases stmt with
  | assign span targets value =>
      simp only [Inference.inferStmt, Pass.reaches_bind] at hreach
      obtain ⟨_, middle, hvalue, hassign⟩ := hreach
      exact hrelated.trans (hrelated.inferExpr hvalue) (hrelated.inferAssign hassign)
  | augAssign span target op value =>
      simp only [Inference.inferStmt, Pass.reaches_bind] at hreach
      obtain ⟨_, middle, hvalue, hstore⟩ := hreach
      exact hrelated.trans (hrelated.inferExpr hvalue) (hrelated.storeAll hstore)
  | forIn span target iter body orelse index =>
      obtain ⟨-, -, _, _, _, _, _, _, _, hiter, -, htarget, hbind, hbody, -⟩ := exists_forIn hreach
      exact hrelated.trans (hrelated.inferExpr hiter) (hrelated.trans (hrelated.inferExpr htarget)
        (hrelated.trans (hrelated.bindElement hbind) (hrelated.inferBody hbody)))
  | whileLoop span test body orelse =>
      obtain ⟨-, _, _, _, htest, hbody, -⟩ := exists_whileLoop hreach
      exact hrelated.trans (hrelated.inferTest htest) (hrelated.inferBody hbody)
  | branch span test body orelse =>
      simp only [Inference.inferStmt, Pass.reaches_bind, Pass.reaches_pure] at hreach
      obtain ⟨_, first, htest, _, second, hbody, _, _, horelse, -, rfl⟩ := hreach
      exact hrelated.trans (hrelated.inferTest htest)
        (hrelated.trans (hrelated.inferBody hbody) (hrelated.inferBody horelse))
  | ret span value =>
      simp only [Inference.inferStmt, Pass.reaches_bind, Pass.reaches_pure] at hreach
      obtain ⟨_, middle, hvalue, _, _, hreturn, -, rfl⟩ := hreach
      exact hrelated.trans (hrelated.inferPart hvalue) (hrelated.inferReturn hreturn)
  | expr span value =>
      simp only [Inference.inferStmt, Pass.reaches_bind, Pass.reaches_pure] at hreach
      obtain ⟨_, _, hvalue, -, rfl⟩ := hreach
      exact hrelated.inferExpr hvalue
  | print span values dest newline =>
      simp only [Inference.inferStmt, Pass.reaches_bind, Pass.reaches_pure] at hreach
      obtain ⟨_, middle, hvalues, _, _, hdest, -, rfl⟩ := hreach
      exact hrelated.trans (hrelated.inferPrinted hvalues) (hrelated.inferPart hdest)
  | global => simp only [Inference.inferStmt, not_reaches_refuse] at hreach
  | _ =>
      simp only [Inference.inferStmt, Pass.reaches_pure] at hreach
      obtain ⟨-, rfl⟩ := hreach
      exact hrelated.refl after
termination_by structural stmt

/-- What the steps of inference keep to, a visit of a body keeps to. -/
theorem FollowedOn.inferBody (hrelated : FollowedOn setting related) {body results : List Stmt}
    {before after : Scope}
    (hreach : Pass.Reaches (inferBody setting body) before results after) :
    related before after := by
  cases body with
  | nil =>
      simp only [Inference.inferBody, Pass.reaches_pure] at hreach
      obtain ⟨-, rfl⟩ := hreach
      exact hrelated.refl after
  | cons stmt body =>
      simp only [Inference.inferBody, Pass.reaches_bind, Pass.reaches_pure] at hreach
      obtain ⟨_, middle, hstmts, _, _, hrest, -, rfl⟩ := hreach
      exact hrelated.trans (hrelated.inferStmt hstmts) (hrelated.inferBody hrest)
termination_by structural body

end

/-! ## Bindings stay as they are -/

/-- Bindings were added behind those that were there, under names that meant nothing. -/
structure Scope.Extends (before after : Scope) : Prop where
  vars : before.symbols.vars <+: after.symbols.vars
  lookup : ∀ {name id}, before.symbols.lookup name = some id →
    after.symbols.lookup name = some id

namespace Scope.Extends

variable {before middle after : Scope}

theorem refl (scope : Scope) : scope.Extends scope := ⟨List.prefix_rfl, id⟩

theorem trans (hfirst : before.Extends middle) (hsecond : middle.Extends after) :
    before.Extends after :=
  ⟨hfirst.vars.trans hsecond.vars, fun hfound => hsecond.lookup (hfirst.lookup hfound)⟩

theorem get? (hextends : before.Extends after) {id : SymbolId} {var : Variable}
    (hvar : before.symbols.get? id = some var) : after.symbols.get? id = some var := by
  obtain ⟨added, hadded⟩ := hextends.vars
  unfold SymbolTable.get? at hvar ⊢
  rw [← hadded]
  exact (List.getElem?_append_left (List.getElem?_eq_some_iff.mp hvar).1).trans hvar

theorem typeOf? (hextends : before.Extends after) {id : SymbolId} {ty : Ty}
    (hty : before.symbols.typeOf? id = some ty) : after.symbols.typeOf? id = some ty := by
  obtain ⟨var, hvar, hvarTy⟩ := Option.bind_eq_some_iff.mp hty
  exact Option.bind_eq_some_iff.mpr ⟨var, hextends.get? hvar, hvarTy⟩

theorem grows (hextends : before.Extends after) : before.Grows after :=
  ⟨fun _ hty => hextends.typeOf? hty, fun hvoid => hextends.typeOf? hvoid,
    fun ⟨var, hvar, hname⟩ => ⟨var, hextends.get? hvar, hname⟩⟩

end Scope.Extends

theorem extends_visitName {name : String} {access : Access} {before after : Scope} {result : Expr}
    (hreach : Pass.Reaches (visitName setting name access span) before result after) :
    before.Extends after := by
  simp only [visitName, pure_bind, Pass.reaches_bind, Pass.reaches_get] at hreach
  obtain ⟨_, start, ⟨rfl, rfl⟩, hreach⟩ := hreach
  split at hreach
  next id hid =>
    split at hreach
    · simp only [Pass.reaches_bind, not_reaches_refuse, false_and, exists_false] at hreach
    · obtain ⟨-, rfl⟩ := Pass.reaches_pure.mp hreach
      exact .refl after
  next hnew =>
    simp only [Pass.reaches_bind, Pass.reaches_pure] at hreach
    obtain ⟨id, _, hfree, -, rfl⟩ := hreach
    obtain ⟨ty, -, hafter⟩ := reaches_bindFree hfree
    constructor
    · rw [hafter]
      exact List.prefix_append _ _
    · intro other id hfound
      rw [hafter, SymbolTable.lookup_insert, if_neg, hfound]
      rintro ⟨⟩
      cases hnew.symm.trans hfound

theorem followed_extends (setting : Setting) : Followed setting Scope.Extends :=
  ⟨.refl, .trans, extends_visitName⟩

end KernelFront.Inference
