import KernelFront.Proofs.Boxing
import KernelFront.Proofs.Inference.Stores

/-! # Internal errors

A function of the source is refused with an internal error in two cases only. A name in a display
among the places of an assignment is bound but never stored to, so it may be left without a type.
And a callee may have the type of a function without being a free name, as a local or a parameter
does; entry points are known by free names only.
-/

namespace KernelFront

open Inference

/-! ## Fixing types -/

section Fixing

variable {table : SymbolTable} {exempt : Span → Prop}

theorem Expr.resolveDeferred_of_awaited {e : Expr} (hawaited : e.awaited? = none) :
    e.resolveDeferred table = .ok e := by
  cases e with
  | deferredCoercion => cases hawaited
  | _ => rfl

theorem Expr.fixType_of_resolved {e resolved : Expr}
    (hresolve : e.resolveDeferred table = .ok resolved) :
    e.fixType table = match resolved.typeIn? table with
      | some ty => .ok (resolved.withTy ty)
      | none => .error ⟨.internal "node left without a type", resolved.span⟩ := by
  unfold Expr.fixType
  rw [hresolve]
  rfl

/-- A determined expression has a type that can be fixed on it. -/
theorem Inference.Determined.fixType {e : Expr} (hdetermined : Determined table e) :
    ∃ fixed, e.fixType table = .ok fixed := by
  obtain ⟨resolved, hresolve, hty⟩ : ∃ resolved, e.resolveDeferred table = .ok resolved ∧
      (resolved.typeIn? table).isSome := by
    cases e with
    | deferredCoercion note node slot =>
        obtain ⟨ty, hty⟩ := Option.isSome_iff_exists.mp (hdetermined.awaited slot rfl)
        refine ⟨node.convert table ty, by simp only [Expr.resolveDeferred, hty], ?_⟩
        unfold Expr.convert
        split
        · rename_i hsame
          exact Option.isSome_of_eq_some hsame
        · rfl
    | _ => exact ⟨_, rfl, hdetermined.isSome_typeIn?⟩
  obtain ⟨ty, hty⟩ := Option.isSome_iff_exists.mp hty
  rw [Expr.fixType_of_resolved hresolve, hty]
  exact ⟨_, rfl⟩

/-- A type may be missing on exempt names only. -/
theorem fixType_error {node : Expr} {parts : List Expr} {error : TypeError}
    (hknown : Determined table node ∨ node.isStoredName ∧ exempt node.span)
    (herror : (node.withChildren parts).fixType table = .error error) :
    ∃ span, exempt span ∧ error = ⟨.internal "node left without a type", span⟩ := by
  rcases hknown with hdetermined | ⟨hstored, hexempt⟩
  · have hrebuilt : Determined table (node.withChildren parts) := by
      refine ⟨?_, ?_⟩
      · rw [Expr.binding, Expr.note_withChildren]
        exact hdetermined.bound
      · rw [Expr.awaited?_withChildren]
        exact hdetermined.awaited
    obtain ⟨fixed, hfixed⟩ := hrebuilt.fixType
    cases hfixed.symm.trans herror
  · have hawaited : (node.withChildren parts).awaited? = none := by
      rw [Expr.awaited?_withChildren, awaited?_of_isStoredName hstored]
    rw [Expr.fixType_of_resolved (Expr.resolveDeferred_of_awaited hawaited)] at herror
    split at herror <;> cases herror
    refine ⟨node.span, hexempt, ?_⟩
    rw [Expr.span, Expr.note_withChildren]
    rfl

/-- All errors of the outcome satisfy a predicate. -/
def Fails (good : TypeError → Prop) (α : Type) (outcome : Except TypeError α) : Prop :=
  ∀ error, outcome = .error error → good error

theorem composable_fails (good : TypeError → Prop) : Composable (Fails good) := by
  refine ⟨?_, ?_⟩
  · rintro _ _ _ ⟨⟩
  · intro _ _ first next hfirst hnext error herror
    cases first with
    | error refusal =>
        cases herror
        exact hfirst error rfl
    | ok value => exact hnext value error herror

theorem fails_fixTypes {body : List Stmt} (hknown : KnownBody exempt table body) :
    Fails (fun error => ∃ span, exempt span ∧ error = ⟨.internal "node left without a type", span⟩)
      _ (Stmt.fixTypes table body) := by
  refine (composable_fails _).rebuildBody (fun _ => (composable_fails _).pure _) ?_
  intro inner hinner e he
  refine (composable_fails _).rebuildM fun node hnode parts error herror => ?_
  exact fixType_error (hknown inner hinner node (Expr.mem_nodesAll.mpr ⟨e, he, hnode⟩)) herror

/-- Fixing the types of a function whose expressions are known fails at exempt names only. -/
theorem FunctionDef.untyped_of_typed {func : FunctionDef} {error : TypeError}
    (hknown : KnownBody exempt table func.body) (herrorReturn : func.errorReturn = none)
    (hrefuses : Pass.Refuses (func.typed table) error) :
    ∃ span, exempt span ∧ error = ⟨.internal "node left without a type", span⟩ := by
  simp only [FunctionDef.typed, Pass.refuses_bind, Pass.refuses_ofExcept] at hrefuses
  obtain hfix | ⟨_, _, hrefuses | ⟨_, _, hrefuses⟩⟩ := hrefuses
  · refine (composable_fails _).bind (fails_fixTypes hknown) (fun body => ?_) error hfix
    rw [herrorReturn]
    exact (composable_fails _).pure _
  · exact absurd hrefuses Pass.not_refuses_report
  · exact absurd hrefuses Pass.not_refuses_pure

end Fixing

/-! ## Counting loops -/

namespace Loops

/-- No answers bring the pass to an internal error. -/
def Stable (α : Type) (pass : Lowering α) : Prop :=
  ∀ temps, Pass.Meets (fun error => error.kind ≠ .internal) pass temps fun _ _ => True

theorem composable_stable : Composable Stable :=
  ⟨fun _ _ => Pass.meets_pure trivial, fun hfirst hnext temps =>
    Pass.meets_bind (hfirst temps) fun value after _ => hnext value after⟩

theorem stable_throw {α : Type} {error : TypeError} (hkind : error.kind ≠ .internal) :
    Stable α (throw error) :=
  fun _ => Pass.meets_throw hkind

theorem stable_allocate (ty : Ty) (kind : TempKind) : Stable TempId (allocate ty kind) := by
  have hget : Stable _ (get : Lowering (List TempDecl)) := fun _ => Pass.meets_get trivial
  have hset (temps : List TempDecl) : Stable _ (set temps : Lowering PUnit) :=
    fun _ => Pass.meets_set trivial
  exact composable_stable.bind hget fun temps =>
    composable_stable.bind (hset _) fun _ => composable_stable.pure _

theorem stable_evaluateOnce (iter : Expr) (ty : Ty) : Stable _ (evaluateOnce iter ty) := by
  unfold evaluateOnce
  split
  · exact composable_stable.pure _
  · exact composable_stable.bind (stable_allocate ty .array) fun id => composable_stable.pure _

theorem stable_lowerLoop {table : SymbolTable} {indexType : Ty} {span : Span} {target iter : Expr}
    {body orelse : List Stmt} :
    Stable _ (lowerLoop table indexType span target iter body orelse) := by
  have hreport {lowered : List Stmt} {text : String} : Stable _ (do
      StateT.lift (Pass.report .debug text)
      pure lowered) := by
    refine composable_stable.bind (fun _ => Pass.meets_lift (fun _ _ => trivial) ?_)
      fun _ => composable_stable.pure _
    exact fun _ hrefuses => absurd hrefuses Pass.not_refuses_report
  unfold lowerLoop
  split
  · exact stable_throw ErrorKind.noConfusion
  · dsimp only
    split
    · exact hreport
    · refine composable_stable.bind (stable_evaluateOnce _ _) fun setup => ?_
      refine composable_stable.bind (stable_allocate _ _) fun id => ?_
      exact composable_stable.bind (composable_stable.pure _) fun lowered => hreport
    · exact composable_stable.bind (stable_throw ErrorKind.noConfusion) fun lowered => hreport

theorem stable_lowerBody (table : SymbolTable) (indexType : Ty) (body : List Stmt) :
    Stable _ (lowerBody table indexType body) := by
  refine composable_stable.rebuildBody (fun stmt => ?_) fun _ _ e _ => ?_
  · cases stmt with
    | forIn => exact stable_lowerLoop
    | _ => exact composable_stable.pure _
  · rw [Expr.rebuildM_pure]
    exact composable_stable.pure e

end Loops

theorem FunctionDef.not_internal_of_counted {table : SymbolTable} {indexType : Ty}
    {func : FunctionDef} {error : TypeError}
    (hrefuses : Pass.Refuses (func.counted table indexType) error) : error.kind ≠ .internal := by
  simp only [FunctionDef.counted, Pass.refuses_bind] at hrefuses
  obtain hrefuses | ⟨_, _, hrefuses | ⟨_, _, hrefuses⟩⟩ := hrefuses
  · exact (Loops.stable_lowerBody table indexType func.body func.temps).refuses hrefuses
  · exact absurd hrefuses Pass.not_refuses_report
  · exact absurd hrefuses Pass.not_refuses_pure

/-! ## Boxing -/

namespace Boxing

/-- The step ends in no internal error. -/
def Stable (α : Type) (step : Step α) : Prop :=
  ∀ temps, Fails (fun error => error.kind ≠ .internal) _ (step.run temps)

theorem composable_run (good : TypeError → Prop) :
    Composable fun α (step : Step α) => ∀ temps, Fails good _ (step.run temps) := by
  refine ⟨fun _ _ => (composable_fails _).pure _, fun hfirst hnext temps => ?_⟩
  exact (composable_fails _).bind (hfirst temps) fun (value, after) => hnext value after

theorem composable_stable : Composable Stable := composable_run _

theorem stable_own (e : Expr) : Stable _ (own e) := by
  rintro temps error ⟨⟩

theorem stable_throughPointer (note : Note) (value selector : Expr) (access : Access) :
    Stable _ (StateT.lift (throughPointer note value selector access)) := by
  intro temps
  refine (composable_fails _).bind ?_ fun _ => (composable_fails _).pure _
  unfold throughPointer
  intro error herror
  split at herror
  · split at herror <;> cases herror
    exact ErrorKind.noConfusion
  · cases herror
  · cases herror

/-- Only a conversion that still waits for its type may end in an internal error. -/
theorem stable_boxExpr {table : SymbolTable} {e : Expr} (hself : e.isTransient = false) :
    Stable _ (boxExpr table e) := by
  cases e with
  | deferredCoercion => cases hself
  | tuple note elts access =>
      cases access with
      | load =>
          simp only [boxExpr]
          split
          · exact stable_own _
          · exact stable_own _
      | store => exact composable_stable.pure _
  | dict => exact stable_own _
  | objectCall => exact stable_own _
  | nativeCall note symbol signature args =>
      simp only [boxExpr]
      split
      · exact stable_own _
      · exact composable_stable.pure _
  | subscript note value selector access => exact stable_throughPointer note value selector access
  | _ => exact composable_stable.pure _

theorem stable_boxStmt (stmt : Stmt) : Stable _ (boxStmt stmt) := by
  unfold boxStmt
  split
  · rintro temps error ⟨⟩
    exact ErrorKind.noConfusion
  · exact composable_stable.pure _
  · exact composable_stable.pure _

theorem stable_boxBody {table : SymbolTable} {body : List Stmt}
    (hsteady : ∀ stmt ∈ Stmt.nestedBody body, Steady stmt.nodes) :
    Stable _ (boxBody table body) := by
  refine composable_stable.rebuildBody stable_boxStmt fun inner hinner e he => ?_
  refine composable_stable.rebuildM fun node hnode parts => stable_boxExpr ?_
  rw [Expr.isTransient_withChildren]
  exact hsteady inner hinner node (Expr.mem_nodesAll.mpr ⟨e, he, hnode⟩)

end Boxing

theorem FunctionDef.not_internal_of_boxed {table : SymbolTable} {signature : FunctionType}
    {func : FunctionDef} {error : TypeError}
    (hsteady : ∀ stmt ∈ func.statements, Steady stmt.nodes)
    (hrefuses : Pass.Refuses (func.boxed table signature) error) : error.kind ≠ .internal := by
  simp only [FunctionDef.boxed, Pass.refuses_bind, Pass.refuses_ofExcept] at hrefuses
  obtain hbox | ⟨_, _, hrefuses | ⟨_, _, hrefuses⟩⟩ := hrefuses
  · refine (composable_fails _).bind (Boxing.stable_boxBody hsteady func.temps) (fun _ => ?_) error
      hbox
    exact (composable_fails _).pure _
  · exact absurd hrefuses Pass.not_refuses_report
  · exact absurd hrefuses Pass.not_refuses_pure

/-! ## Inference -/

namespace Inference

namespace Scope

theorem vars_foldl_declare (vars : List Variable) (scope : Scope) :
    (vars.foldl declare scope).symbols.vars = scope.symbols.vars ++ vars := by
  induction vars generalizing scope with
  | nil => exact (List.append_nil _).symm
  | cons var vars ih =>
      rw [List.foldl_cons, ih]
      exact List.append_assoc _ [var] vars

/-- Names can be visited in the scope in which the body of a function is read. -/
theorem sane_ofFunction (func : FunctionDef) (args : List Ty) :
    (ofFunction func args).Sane func.ownNames := by
  -- Behind the binding of the result stand the names that the function binds, and locals only have
  -- no type.
  obtain ⟨made, hvars, hmade⟩ :
      ∃ made, (ofFunction func args).symbols.vars = initial.symbols.vars ++ made ∧
        ∀ var ∈ made, (var.ty = none → var.isLocal) ∧
          ∃ name ∈ func.ownNames, var.name = some name := by
    refine ⟨_, vars_foldl_declare _ _, ?_⟩
    simp only [FunctionDef.ownNames]
    refine List.forall_mem_append.mpr ⟨List.forall_mem_append.mpr ⟨?_, ?_⟩, ?_⟩
    · refine List.forall_mem_map.mpr fun ⟨name, ty⟩ hname => ⟨fun _ => rfl, name, ?_, rfl⟩
      simp [(List.of_mem_zip hname).1]
    · refine List.forall_mem_map.mpr fun name hname => ⟨fun _ => rfl, name, ?_, rfl⟩
      simp [hname]
    · refine List.forall_mem_singleton.mpr ⟨?_, "None", by simp, rfl⟩
      rintro ⟨⟩
  refine ⟨anonymous_ofFunction func args, ?_, ?_⟩
  · rintro ⟨_ | index⟩ var hid hvar hnone
    · exact absurd rfl hid
    · rw [SymbolTable.get?, hvars] at hvar
      obtain ⟨hlocal, hown⟩ := hmade var (List.mem_of_getElem? hvar)
      exact ⟨hlocal hnone, hown⟩
  · intro name id _ _ hown hfound _
    obtain ⟨var, hvar, hname⟩ := SymbolTable.lookup_some hfound
    rw [SymbolTable.get?, hvars] at hvar
    rcases List.mem_append.mp (List.mem_of_getElem? hvar) with hslot | hvar
    · obtain rfl : var = ({} : Variable) := List.mem_singleton.mp hslot
      cases hname
    · obtain ⟨_, other, hother, hsame⟩ := hmade var hvar
      cases hsame.symm.trans hname
      exact absurd hother hown

end Scope

namespace Ambient

variable {ambient : Ambient}

theorem visits_settleResult (declared : Option Ty) (span : Span) {before : Scope}
    (hsane : before.Sane ambient.own) :
    ambient.Visits (settleResult declared span) before fun _ _ => True := by
  have hsettle (ty : Ty) : ambient.Visits (do
      modify fun scope => scope.setType Scope.resultSlot ty
      pure ty) before fun _ _ => True := by
    have hsane' := hsane.setType ty (.inl rfl)
    exact visits_modify_bind (Scope.keeps_setType _ _ _) hsane' (visits_pure hsane' trivial)
  unfold settleResult
  refine visits_get hsane ?_
  dsimp only
  split
  · exact hsettle _
  · exact hsettle _
  · split
    · exact hsettle _
    · exact visits_apply_bind hsane (regular_join _ _ _) fun joined _ => hsettle joined
  · exact hsettle _

variable {func : FunctionDef} {signature : Signature}

/-- The expressions of a function of the source become known, or inference refuses the function as
the ambient allows. -/
theorem visits_function (haccepts : ∀ stmt ∈ func.statements, ambient.Accepts stmt)
    (hown : ambient.own = func.ownNames) :
    ambient.Visits (do
      let body ← inferBody ambient.setting func.body
      let ret ← settleResult signature.ret func.span
      pure (body, ret)) (Scope.ofFunction func signature.args) fun result after =>
        KnownBody ambient.exempt after.symbols result.1 := by
  have hsane := Scope.sane_ofFunction func signature.args
  rw [← hown] at hsane
  refine visits_bind (visits_inferBody haccepts hsane) fun body middle hbody => ?_
  refine visits_bind (visits_settleResult _ _ hbody.sane) fun ret after hret => ?_
  exact visits_pure hret.sane (hbody.holds.mono hret.keeps)

theorem allowed_of_inferFunction (haccepts : ∀ stmt ∈ func.statements, ambient.Accepts stmt)
    (hown : ambient.own = func.ownNames) {error : TypeError}
    (hrefuses : Pass.Refuses (inferFunction ambient.setting func signature) error) :
    ambient.allowed error := by
  unfold inferFunction at hrefuses
  split at hrefuses
  · obtain rfl := Pass.refuses_throw.mp hrefuses
    exact ambient.regular ErrorKind.noConfusion
  · simp only [Pass.refuses_bind] at hrefuses
    obtain hrefuses | ⟨_, _, hrefuses | ⟨_, _, hrefuses⟩⟩ := hrefuses
    · exact (visits_function haccepts hown).refuses hrefuses
    · exact absurd hrefuses Pass.not_refuses_report
    · exact absurd hrefuses Pass.not_refuses_pure

theorem known_of_inferFunction (haccepts : ∀ stmt ∈ func.statements, ambient.Accepts stmt)
    (hown : ambient.own = func.ownNames) {inferred : Inferred}
    (hinfer : Pass.Succeeds (inferFunction ambient.setting func signature) inferred) :
    KnownBody ambient.exempt inferred.symbols inferred.func.body ∧
      inferred.func.errorReturn = func.errorReturn := by
  unfold inferFunction at hinfer
  split at hinfer
  · exact absurd hinfer Pass.not_succeeds_throw
  · simp only [Pass.succeeds_bind] at hinfer
    obtain ⟨⟨⟨body, ret⟩, scope⟩, hrun, _, _, hinferred⟩ := hinfer
    obtain rfl := Pass.succeeds_pure.mp hinferred
    exact ⟨((visits_function haccepts hown).reaches hrun).holds, rfl⟩

end Ambient

end Inference

/-! ## Compilation -/

namespace FunctionDef

variable {setting : Inference.Setting} {func : FunctionDef} {signature : Signature}
  {error : TypeError}

/-- A call without keyword arguments finds no entry point for a callee that is not a free name. -/
def Unlinked (func : FunctionDef) (error : TypeError) : Prop :=
  ∃ note callee args, .call note callee args [] ∈ func.nodes ∧
    ¬ callee.IsFreeName func.ownNames ∧
    error = ⟨.internal "native callee without entry point", note.span⟩

/-- A function of the source is refused with an internal error only if a name in a display among the
places of an assignment is left without a type, or if the callee of a call without keyword arguments
is not a free name. -/
theorem internal_of_compile (hsource : func.IsSource)
    (hrefuses : Pass.Refuses (func.compile setting signature) error)
    (hinternal : error.kind = .internal) :
    (∃ name ∈ func.strays, error = ⟨.internal "node left without a type", name.span⟩) ∨
      ∃ note callee args, .call note callee args [] ∈ func.nodes ∧
        ¬ callee.IsFreeName func.ownNames ∧
        error = ⟨.internal "native callee without entry point", note.span⟩ := by
  let ambient : Ambient :=
    { setting
      own := func.ownNames
      exempt := fun span => ∃ name ∈ func.strays, span = name.span
      allowed := fun error => error.kind ≠ .internal ∨ func.Unlinked error
      regular := .inl }
  have haccepts : ∀ stmt ∈ func.statements, ambient.Accepts stmt := by
    intro stmt hstmt
    refine ⟨hsource.statements stmt hstmt, fun name hname => ?_, ?_⟩
    · exact ⟨name, List.mem_flatMap.mpr ⟨stmt, hstmt, hname⟩, rfl⟩
    · intro note callee args hcall hbound
      exact .inr ⟨note, callee, args, List.mem_flatMap.mpr ⟨stmt, hstmt, hcall⟩, hbound, rfl⟩
  have huncounted : ∀ stmt ∈ func.statements, stmt.Uncounted :=
    fun stmt hstmt => (hsource.statements stmt hstmt).uncounted
  simp only [compile, Pass.refuses_bind] at hrefuses
  obtain hrefuses | ⟨_, _, hrefuses⟩ := hrefuses
  · exact absurd hrefuses Pass.not_refuses_report
  obtain hrefuses | ⟨inferred, hinfer, hrefuses⟩ := hrefuses
  · refine (Ambient.allowed_of_inferFunction haccepts rfl hrefuses).elim ?_ .inr
    exact fun hregular => absurd hinternal hregular
  obtain ⟨hknown, herrorReturn⟩ := Ambient.known_of_inferFunction haccepts rfl hinfer
  obtain hrefuses | ⟨typed, htyped, hrefuses⟩ := hrefuses
  · obtain ⟨_, ⟨name, hname, rfl⟩, rfl⟩ :=
      untyped_of_typed hknown (herrorReturn.trans hsource.errorReturn) hrefuses
    exact .inl ⟨name, hname, rfl⟩
  obtain hrefuses | ⟨counted, hcounted, hrefuses⟩ := hrefuses
  · exact absurd hinternal (not_internal_of_counted hrefuses)
  obtain ⟨hsteady, _⟩ := steady_counted (steady_typed huncounted hinfer htyped) hcounted
  obtain hrefuses | ⟨boxed, hboxed, hrefuses⟩ := hrefuses
  · exact absurd hinternal (not_internal_of_boxed hsteady hrefuses)
  obtain hrefuses | ⟨_, _, hrefuses⟩ := hrefuses
  · exact absurd hrefuses Pass.not_refuses_report
  · exact absurd hrefuses Pass.not_refuses_pure

end FunctionDef

/-- `a, (b, c) = 1, (2, 3)`: nothing is stored in `b` and in `c`. -/
def nesting : FunctionDef :=
  open Builder in
  function "nesting" []
    [assign (tupleStore [store "a", tupleStore [store "b", store "c"]])
      (tuple [int 1, tuple [int 2, int 3]])]

theorem isSource_nesting : nesting.IsSource := by
  refine ⟨List.forall_mem_singleton.mpr ⟨List.forall_mem_singleton.mpr ?_, ?_⟩, rfl⟩
  · have hinner : (Builder.tupleStore [Builder.store "b", Builder.store "c"]).IsPlace .store :=
      .tuple (List.forall_mem_cons.mpr ⟨.name, List.forall_mem_singleton.mpr .name⟩)
    exact .tuple (List.forall_mem_cons.mpr ⟨.name, List.forall_mem_singleton.mpr hinner⟩)
  · unfold Expr.IsRead
    decide

theorem internal_of_compile_nesting : ∃ error, nesting.IsSource ∧
    Pass.Refuses (nesting.compile builtinsOnly { args := [] }) error ∧ error.kind = .internal ∧
    ∃ name ∈ nesting.strays, error = ⟨.internal "node left without a type", name.span⟩ := by
  obtain ⟨error, hrefuses, hcause⟩ : ∃ error,
      Pass.Refuses (nesting.compile builtinsOnly { args := [] }) error ∧
      error.cause = .internal "node left without a type" :=
    Pass.exists_refuses (fun _ _ => .host) (by decide +kernel)
  have hinternal : error.kind = .internal := by rw [TypeError.kind, hcause, Cause.kind]
  refine ⟨error, isSource_nesting, hrefuses, hinternal, ?_⟩
  refine (FunctionDef.internal_of_compile isSource_nesting hrefuses hinternal).resolve_right ?_
  rintro ⟨_, _, _, _, _, rfl⟩
  simp at hcause

/-- A namespace of functions of an integer without a result, which are compiled. -/
def compiledOnly : Inference.Setting :=
  { names := ⟨fun name => .native ⟨name, ⟨[.int64], .void⟩⟩, fun _ _ => none⟩ }

/-- `g = f; g(1)`: a local stands for the compiled function `f`. -/
def aliasing : FunctionDef :=
  open Builder in
  function "aliasing" [] [assign (store "g") (load "f"), exprStmt (call (load "g") [int 1])]

theorem isSource_aliasing : aliasing.IsSource := by
  refine ⟨List.forall_mem_cons.mpr ⟨⟨List.forall_mem_singleton.mpr .name, ?_⟩,
    List.forall_mem_singleton.mpr (List.forall_mem_singleton.mpr ?_)⟩, rfl⟩
  · unfold Expr.IsRead
    decide
  · unfold Expr.IsRead
    decide

/-- Functions of the source are refused with internal errors, in either of the two ways. -/
theorem not_only_regular_compile :
    (nesting.IsSource ∧ ∃ error,
      Pass.Refuses (nesting.compile builtinsOnly { args := [] }) error ∧ error.kind = .internal) ∧
    aliasing.IsSource ∧ ∃ error,
      Pass.Refuses (aliasing.compile compiledOnly { args := [] }) error ∧
        error.kind = .internal := by
  refine ⟨⟨isSource_nesting, ?_⟩, isSource_aliasing, ?_⟩
  · exact Pass.exists_refuses (fun _ _ => .host) (by decide +kernel)
  · exact Pass.exists_refuses (fun _ _ => .host) (by decide +kernel)

end KernelFront
