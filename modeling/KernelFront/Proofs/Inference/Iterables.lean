import KernelFront.Proofs.Counters
import KernelFront.Proofs.Inference.Returns
import KernelFront.Proofs.Inference.Unpacking

/-! # Iterables of loops

Inference and the fixing of types keep the loops of a function one by one, and a plain name remains
the iterable that it was. Nothing else becomes a plain name, except the argument of a call of `int`
or `float` that has the type of that builtin already.
-/

namespace KernelFront

/-- Two loops at the same place whose iterables are related. -/
inductive Stmt.Iterates (Rel : Expr → Expr → Prop) : Stmt → Stmt → Prop where
  | intro {span : Span} {target target' iter iter' : Expr} {body orelse body' orelse' : List Stmt}
      {index index' : Option Expr} (hiter : Rel iter iter') :
      Iterates Rel (.forIn span target iter body orelse index)
        (.forIn span target' iter' body' orelse' index')

theorem Stmt.Iterates.imp {Rel Rel' : Expr → Expr → Prop} {loop loop' : Stmt}
    (himp : ∀ iter iter', Rel iter iter' → Rel' iter iter') (hiterates : loop.Iterates Rel loop') :
    loop.Iterates Rel' loop' := by
  obtain ⟨hiter⟩ := hiterates
  exact .intro (himp _ _ hiter)

theorem Stmt.loops_whileLoop (span : Span) (test : Expr) (body orelse : List Stmt) :
    loops [.whileLoop span test body orelse] = loops body ++ loops orelse := by
  simp [loops_singleton, innerLoops, bodies, isLoop]

theorem Stmt.loops_branch (span : Span) (test : Expr) (body orelse : List Stmt) :
    loops [.branch span test body orelse] = loops body ++ loops orelse := by
  simp [loops_singleton, innerLoops, bodies, isLoop]

/-- A type that one of the builtins `int` and `float` converts to. -/
def Options.Converts (options : Options) (ty : Ty) : Prop :=
  ty = options.intBuiltin ∨ ty = options.floatBuiltin

@[simp] theorem Expr.asName_withNote (note : Note) (e : Expr) :
    (e.withNote note).asName = e.asName := by
  cases e <;> rfl

@[simp] theorem Expr.asName_withChildren (e : Expr) (parts : List Expr) :
    (e.withChildren parts).asName = e.asName := by
  unfold withChildren
  split <;> rfl

namespace Inference

variable {setting : Setting} {span : Span} {table : SymbolTable}

/-- A rule makes no plain name, or it leaves a value as it is that a builtin converts. -/
def Nameless (options : Options) (table : SymbolTable) (result : Expr) : Prop :=
  result.asName = none ∨ ∃ ty, options.Converts ty ∧ result.typeIn? table = some ty

theorem asName_typeAttribute {value result : Expr} {attr : String} {access : Access}
    (hrule : typeAttribute setting span value attr access table = .ok result) :
    result.asName = none := by
  cases attributeOutcome_of_ok hrule <;> rfl

theorem asName_typeSubscript {value selector result : Expr} {access : Access}
    (hrule : typeSubscript span value selector access table = .ok result) :
    result.asName = none := by
  cases subscriptOutcome_of_ok hrule <;> rfl

/-- Only a conversion that is not needed leaves its operand. -/
theorem nameless_convert {options : Options} {ty : Ty} (hty : options.Converts ty) (value : Expr) :
    Nameless options table (value.convert table ty) := by
  unfold Expr.convert
  split
  · rename_i hvalue
    exact .inr ⟨ty, hty, hvalue⟩
  · exact .inl rfl

theorem nameless_typeCall {func : Expr} {args : List Expr} {keywords : List (String × Expr)}
    {before after : Scope} {result : Expr}
    (hreach : Pass.Reaches (typeCall setting span func args keywords) before result after) :
    Nameless setting.options after.symbols result := by
  obtain ⟨rfl, houtcome⟩ := callOutcome_of_reaches hreach
  cases houtcome with
  | builtin hbuiltin =>
      cases hbuiltin with
      | upTo | fromTo | stepping | length => exact .inl rfl
      | int => exact nameless_convert (.inl rfl) _
      | float => exact nameless_convert (.inr rfl) _
  | direct hrule =>
      obtain ⟨-, rfl⟩ := exists_directCall hrule
      exact .inl rfl
  | host => exact .inl rfl

/-- What a visit makes of an expression: a plain name stays one, and nothing else becomes one except
a value that a builtin need not convert. -/
theorem asName_inferExpr {e result : Expr} {before after : Scope}
    (hreach : Pass.Reaches (inferExpr setting e) before result after) :
    result.asName = e.asName ∨
      ∃ ty, setting.options.Converts ty ∧ result.typeIn? after.symbols = some ty := by
  cases e with
  | name note id access =>
      simp only [inferExpr] at hreach
      obtain ⟨_, rfl, _⟩ := reaches_visitName hreach
      exact .inl rfl
  | boolOp =>
      obtain ⟨_, _, rfl⟩ := reaches_boolOp hreach
      exact .inl rfl
  | compare =>
      obtain ⟨_, _, _, _, _, _, hrule⟩ := reaches_compare hreach
      cases compareOutcome_of_ok hrule <;> exact .inl rfl
  | call =>
      simp only [inferExpr, Pass.reaches_bind] at hreach
      obtain ⟨_, _, _, _, _, _, _, _, _, hcall⟩ := hreach
      exact nameless_typeCall hcall
  | «attribute» =>
      simp only [inferExpr, Pass.reaches_bind, reaches_apply] at hreach
      obtain ⟨_, _, _, hrule, _⟩ := hreach
      exact .inl (asName_typeAttribute hrule)
  | subscript =>
      simp only [inferExpr, Pass.reaches_bind, reaches_apply] at hreach
      obtain ⟨_, _, _, _, _, _, hrule, _⟩ := hreach
      exact .inl (asName_typeSubscript hrule)
  | binOp =>
      simp only [inferExpr, Pass.reaches_bind, reaches_apply, typeBinOp, bind_eq_ok,
        pure_eq_ok] at hreach
      obtain ⟨_, _, _, _, _, _, ⟨_, _, _, _, _, _, rfl⟩, _⟩ := hreach
      exact .inl rfl
  | unaryOp note op operand =>
      simp only [inferExpr, Pass.reaches_bind, reaches_apply] at hreach
      obtain ⟨_, _, _, hrule, _⟩ := hreach
      cases unaryOutcome_of_ok hrule <;> exact .inl rfl
  | index =>
      simp only [inferExpr, Pass.reaches_bind, reaches_apply] at hreach
      obtain ⟨_, _, _, hrule, _⟩ := hreach
      obtain ⟨_, -, rfl⟩ := exists_typeIndex hrule
      exact .inl rfl
  | const | ellipsis =>
      simp only [inferExpr, Pass.reaches_pure] at hreach
      obtain ⟨rfl, _⟩ := hreach
      exact .inl rfl
  | extSlice | list =>
      simp only [inferExpr, Pass.reaches_bind, Pass.reaches_pure] at hreach
      obtain ⟨_, _, _, rfl, _⟩ := hreach
      exact .inl rfl
  | slice =>
      simp only [inferExpr, Pass.reaches_bind, Pass.reaches_pure] at hreach
      obtain ⟨_, _, _, _, _, _, _, _, _, rfl, _⟩ := hreach
      exact .inl rfl
  | tuple =>
      simp only [inferExpr, Pass.reaches_bind, reaches_apply, Except.ok.injEq] at hreach
      obtain ⟨_, _, _, rfl, _⟩ := hreach
      exact .inl rfl
  | dict =>
      simp only [inferExpr, Pass.reaches_bind, reaches_apply, Except.ok.injEq] at hreach
      obtain ⟨_, _, _, _, _, _, rfl, _⟩ := hreach
      exact .inl rfl
  | _ => simp only [inferExpr, not_reaches_refuse] at hreach

/-! ## Bodies -/

/-- A visited iterable is a plain name if it was one, and only if its type is not one that a builtin
converts to. -/
def KeepsName (options : Options) (table : SymbolTable) (iter visited : Expr) : Prop :=
  visited.asName = iter.asName ∨
    ∃ ty, options.Converts ty ∧ settledType? table visited = some ty

theorem KeepsName.mono {options : Options} {before after : Scope} (hgrows : before.Grows after)
    {iter visited : Expr} (hkeeps : KeepsName options before.symbols iter visited) :
    KeepsName options after.symbols iter visited :=
  hkeeps.imp_right fun ⟨ty, hconverts, hty⟩ => ⟨ty, hconverts, hgrows.settledType? hty⟩

/-- The loops of visited statements are those of the source. -/
abbrev KeepsLoops (options : Options) (scope : Scope) (body results : List Stmt) : Prop :=
  List.Forall₂ (Stmt.Iterates (KeepsName options scope.symbols)) (Stmt.loops body)
    (Stmt.loops results)

theorem KeepsLoops.mono {options : Options} {before after : Scope} (hgrows : before.Grows after)
    {body results : List Stmt} (hkeeps : KeepsLoops options before body results) :
    KeepsLoops options after body results :=
  List.Forall₂.imp (fun _ _ hloop => hloop.imp fun _ _ => .mono hgrows) hkeeps

variable {before after : Scope}

theorem loops_storeAll {targets elements : List Expr} {stmts : List Stmt}
    (hreach : Pass.Reaches (storeAll setting span targets elements) before stmts after) :
    Stmt.loops stmts = [] := by
  replace hreach := storeRun_of_reaches hreach
  induction hreach with
  | done => rfl
  | store _ hstore _ ih =>
      obtain ⟨stored, rfl⟩ := assign_of_typeStore hstore
      rw [Stmt.loops_assign]
      exact ih

theorem loops_inferAssign {targets : List Expr} {value : Expr} {stmts : List Stmt}
    (hreach : Pass.Reaches (inferAssign setting span targets value) before stmts after) :
    Stmt.loops stmts = [] := by
  obtain ⟨_, -, hstores⟩ := exists_inferAssign hreach
  exact loops_storeAll hstores

theorem isLoop_inferReturn {value : Option Expr} {stmt : Stmt}
    (hreach : Pass.Reaches (inferReturn span value) before stmt after) :
    Stmt.loops [stmt] = [] := by
  cases returnOutcome_of_reaches hreach with
  | nothing | value => rfl

/-- What becomes of an iterable while inference goes on. -/
theorem keepsName_inferExpr {iter visited : Expr} (hanonymous : before.Anonymous)
    (hreach : Pass.Reaches (inferExpr setting iter) before visited after) :
    KeepsName setting.options after.symbols iter visited := by
  have hsettled := (visited_inferExpr hreach).holds hanonymous
  refine (asName_inferExpr hreach).imp_right ?_
  rintro ⟨ty, hconverts, hty⟩
  exact ⟨ty, hconverts, (settledType?_eq hsettled.placed).trans hty⟩

mutual

/-- Visiting a statement keeps its loops. -/
theorem keepsLoops_inferStmt {stmt : Stmt} {results : List Stmt} {before after : Scope}
    (hanonymous : before.Anonymous)
    (hreach : Pass.Reaches (inferStmt setting stmt) before results after) :
    KeepsLoops setting.options after [stmt] results := by
  have hnone (hstmt : Stmt.loops [stmt] = []) (hresults : Stmt.loops results = []) :
      KeepsLoops setting.options after [stmt] results := by
    rw [KeepsLoops, hstmt, hresults]
    exact .nil
  cases stmt with
  | assign span targets value =>
      simp only [inferStmt, Pass.reaches_bind] at hreach
      obtain ⟨_, _, -, hassign⟩ := hreach
      exact hnone rfl (loops_inferAssign hassign)
  | augAssign span target op value =>
      simp only [inferStmt, Pass.reaches_bind] at hreach
      obtain ⟨_, _, -, hstore⟩ := hreach
      exact hnone rfl (loops_storeAll hstore)
  | forIn span target iter body orelse index =>
      obtain ⟨rfl, -, _, _, _, _, _, _, _, hiter, -, htarget, hbind, hbody, rfl⟩ :=
        exists_forIn hreach
      have hname := keepsName_inferExpr hanonymous hiter
      have hiter := (visited_inferExpr hiter).grows
      have htarget := (visited_inferExpr htarget).grows.trans (grows_bindElement hbind)
      have hstart := (hiter.trans htarget).anonymous hanonymous
      have hlater := htarget.trans ((followed_widened setting).inferBody hbody).grows
      rw [KeepsLoops, Stmt.loops_forIn, Stmt.loops_forIn, Stmt.loops_nil, List.append_nil,
        List.append_nil]
      exact .cons (.intro (hname.mono hlater)) (keepsLoops_inferBody hstart hbody)
  | whileLoop span test body orelse =>
      obtain ⟨rfl, _, _, _, htest, hbody, rfl⟩ := exists_whileLoop hreach
      have hstart := ((followed_widened setting).inferTest htest).grows.anonymous hanonymous
      rw [KeepsLoops, Stmt.loops_whileLoop, Stmt.loops_whileLoop, Stmt.loops_nil, List.append_nil,
        List.append_nil]
      exact keepsLoops_inferBody hstart hbody
  | branch span test body orelse =>
      simp only [inferStmt, Pass.reaches_bind, Pass.reaches_pure] at hreach
      obtain ⟨test', first, htest, body', second, hbody, orelse', _, horelse, rfl, rfl⟩ := hreach
      have hstart := ((followed_widened setting).inferTest htest).grows.anonymous hanonymous
      have hmiddle := ((followed_widened setting).inferBody hbody).grows
      have hlater := ((followed_widened setting).inferBody horelse).grows
      rw [KeepsLoops, Stmt.loops_branch, Stmt.loops_branch]
      exact List.rel_append ((keepsLoops_inferBody hstart hbody).mono hlater)
        (keepsLoops_inferBody (hmiddle.anonymous hstart) horelse)
  | ret span value =>
      simp only [inferStmt, Pass.reaches_bind, Pass.reaches_pure] at hreach
      obtain ⟨_, _, -, _, _, hreturn, rfl, -⟩ := hreach
      exact hnone rfl (isLoop_inferReturn hreturn)
  | expr span value =>
      simp only [inferStmt, Pass.reaches_bind, Pass.reaches_pure] at hreach
      obtain ⟨_, _, -, rfl, -⟩ := hreach
      exact hnone rfl rfl
  | print span values dest newline =>
      simp only [inferStmt, Pass.reaches_bind, Pass.reaches_pure] at hreach
      obtain ⟨_, _, -, _, _, -, rfl, -⟩ := hreach
      exact hnone rfl rfl
  | global => simp only [inferStmt, not_reaches_refuse] at hreach
  | _ =>
      simp only [inferStmt, Pass.reaches_pure] at hreach
      obtain ⟨rfl, rfl⟩ := hreach
      exact hnone rfl rfl
termination_by structural stmt

/-- Visiting a body keeps its loops. -/
theorem keepsLoops_inferBody {body results : List Stmt} {before after : Scope}
    (hanonymous : before.Anonymous)
    (hreach : Pass.Reaches (inferBody setting body) before results after) :
    KeepsLoops setting.options after body results := by
  cases body with
  | nil =>
      simp only [inferBody, Pass.reaches_pure] at hreach
      obtain ⟨rfl, rfl⟩ := hreach
      exact .nil
  | cons stmt body =>
      simp only [inferBody, Pass.reaches_bind, Pass.reaches_pure] at hreach
      obtain ⟨stmts, middle, hstmts, rest, _, hrest, rfl, rfl⟩ := hreach
      have hgrows := ((followed_widened setting).inferStmt hstmts).grows
      have hlater := ((followed_widened setting).inferBody hrest).grows
      rw [KeepsLoops, Stmt.loops_cons, Stmt.loops_append]
      exact List.rel_append ((keepsLoops_inferStmt hanonymous hstmts).mono hlater)
        (keepsLoops_inferBody (hgrows.anonymous hanonymous) hrest)
termination_by structural body

end

/-! ## Fixing types -/

/-- Fixing the types of an expression leaves a plain name, and makes none. -/
theorem asName_fixTypes {index : Ty} {e fixed : Expr} (hsettled : Settled index table e.nodes)
    (hfix : e.rebuildM (Expr.fixType table) = .ok fixed) : fixed.asName = e.asName := by
  have hplain : e.isDeferred = false := by
    have hagrees := (hsettled e e.mem_nodes_self).2
    cases e with
    | deferredCoercion => exact hagrees.elim
    | _ => rfl
  rw [Expr.rebuildM_eq, bind_eq_ok] at hfix
  obtain ⟨parts, _, hfix⟩ := hfix
  have hresolve : (e.withChildren parts).resolveDeferred table = .ok (e.withChildren parts) := by
    have hsame := (Expr.isDeferred_withChildren e parts).trans hplain
    cases hrebuilt : e.withChildren parts with
    | deferredCoercion =>
        rw [hrebuilt] at hsame
        cases hsame
    | _ => rfl
  simp only [Expr.fixType, hresolve, bind_eq_ok, Except.ok.injEq, exists_eq_left'] at hfix
  split at hfix
  · cases hfix
    rw [Expr.withTy, Expr.asName_withNote, Expr.asName_withChildren]
  · cases hfix

/-- An expression whose parts agree and what it becomes when its types are fixed. -/
def FixesName (index : Ty) (table : SymbolTable) (e fixed : Expr) : Prop :=
  Settled index table e.nodes → fixed.asName = e.asName ∧ fixed.ty = e.typeIn? table

/-- The runs of a pass that has no temporaries. -/
abbrev Returns {α : Type} (outcome : Except TypeError α) (before : List TempDecl) (value : α)
    (after : List TempDecl) : Prop :=
  outcome = .ok value ∧ after = before

theorem threads_returns : Threads Returns := by
  refine ⟨?_, ?_⟩
  · intro α value result before after
    rw [Returns, pure_eq_ok, eq_comm]
  · intro α β first next result before after
    simp only [Returns, bind_eq_ok]
    constructor
    · rintro ⟨⟨value, hvalue, hresult⟩, rfl⟩
      exact ⟨value, after, ⟨hvalue, rfl⟩, hresult, rfl⟩
    · rintro ⟨value, _, ⟨hvalue, rfl⟩, hresult, rfl⟩
      exact ⟨⟨value, hvalue, hresult⟩, rfl⟩

/-- Fixing the types of a body keeps its loops. -/
theorem iterates_fixBody {index : Ty} {body fixed : List Stmt}
    (hready : AllReady index table (Stmt.nestedBody body))
    (hfix : Stmt.fixTypes table body = .ok fixed) :
    List.Forall₂ (Stmt.Iterates fun iter fixed =>
        fixed.asName = iter.asName ∧ fixed.ty = iter.typeIn? table)
      (Stmt.loops body) (Stmt.loops fixed) := by
  have hexprs (inner : Stmt) (_ : inner ∈ Stmt.nestedBody body) (e : Expr) (_ : e ∈ inner.exprs) :
      Threads.Retains Returns _ (e.rebuildM (Expr.fixType table)) (FixesName index table e) := by
    rintro before fixed after ⟨hfix, rfl⟩
    exact ⟨List.Subset.refl _, fun hsettled =>
      ⟨asName_fixTypes hsettled hfix, (fixed_fixTypes hsettled hfix).ty⟩⟩
  refine (threads_returns.loops_rebuildBody (R := fun _ => Stmt.Iterates _) (fun _ => id) hexprs
    (fun inner hinner rebuilt hreshaped before result after hrun => ?_)
    (show Returns _ [] _ [] from ⟨hfix, rfl⟩)).2
  obtain ⟨hresult, rfl⟩ := hrun
  obtain rfl := pure_eq_ok.mp hresult
  refine ⟨List.Subset.refl _, Threads.follows_singleton hreshaped.isLoop_eq fun hloop => ?_⟩
  cases hreshaped with
  | @forIn span target _ iter iter' body _ orelse _ index' _ _ hiter =>
      have hnodes := settled_nodesAll.mp (hready _ hinner).1
      exact .intro (hiter (hnodes iter (by simp [Stmt.exprs])))
  | _ => cases hloop

end Inference

/-- The loops of a function of the source stay when it is typed, and their iterables remain plain
names or others, apart from values of a type that `int` or `float` converts to. -/
theorem FunctionDef.iterates_typed {setting : Inference.Setting} {func typed : FunctionDef}
    {signature : Signature} {inferred : Inferred}
    (huncounted : ∀ stmt ∈ func.statements, stmt.Uncounted)
    (hinfer : Pass.Succeeds (Inference.inferFunction setting func signature) inferred)
    (htyped : Pass.Succeeds (inferred.func.typed inferred.symbols) typed) :
    List.Forall₂ (Stmt.Iterates fun iter fixed => fixed.asName = iter.asName ∨
        ∃ ty, setting.options.Converts ty ∧ fixed.ty = some ty) func.loops typed.loops := by
  obtain ⟨-, body, ret, middle, scope, hbody, hret, rfl⟩ := Inference.exists_inferFunction hinfer
  have hanonymous := Inference.Scope.anonymous_ofFunction func signature.args
  have hgrows := (Inference.visited_settleResult hret).grows
  have hkeeps := (Inference.keepsLoops_inferBody hanonymous hbody).mono hgrows
  have hready := ((Inference.visited_inferBody huncounted hbody).holds hanonymous).mono hgrows
  obtain ⟨_, _, hfix, -, rfl⟩ := FunctionDef.exists_typed htyped
  refine forall₂_comp ?_ hkeeps (Inference.iterates_fixBody hready hfix)
  rintro _ _ _ ⟨hvisited⟩ ⟨hname, hty⟩
  refine .intro (hvisited.imp hname.trans ?_)
  rintro ⟨ty, hconverts, hsettled⟩
  exact ⟨ty, hconverts, hty.trans (Inference.typeIn?_of_settled hsettled)⟩

end KernelFront
