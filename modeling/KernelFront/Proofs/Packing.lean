import KernelFront.Proofs.Annotation
import KernelFront.Proofs.Answers

/-! # Packed values

The pass that gives boxed values their owners is the last one that replaces expressions. What it
makes is annotated like everything else, and an expression keeps its type with one exception: a
tuple of boxed values becomes a call that packs them, whose result is a boxed value. Where such a
tuple is stored or returned, the types of the two sides differ from then on; everywhere else they
still agree.
-/

namespace KernelFront

open Boxing

/-- A temporary that owns a tuple of boxed values, where a value of a tuple type is expected. -/
def Expr.PackedInto (ty : Option Ty) (e : Expr) : Prop :=
  ∃ span elts id size value, ty = some (.tuple size value) ∧
    e = .objectTemp (.annotated span .object) (packTuple span elts) (some id)

theorem Expr.PackedInto.ty_ne {ty : Option Ty} {e : Expr} (hpacked : e.PackedInto ty) :
    e.ty ≠ ty := by
  obtain ⟨span, elts, id, size, value, rfl, rfl⟩ := hpacked
  exact fun hty => Ty.noConfusion (Option.some.inj hty)

namespace Stmt

/-- Whether a statement prints. -/
def isPrint : Stmt → Bool
  | .print _ _ _ _ => true
  | _ => false

/-- A tuple is packed where it is stored or returned. -/
def Packs (ret : Ty) : Stmt → Prop
  | .assign _ [target] value => value.PackedInto target.ty
  | .ret _ (some value) => value.PackedInto (some ret)
  | _ => False

theorem Packs.not_keepsTypes {ret : Ty} {stmt : Stmt} (hpacks : stmt.Packs ret) :
    ¬ stmt.KeepsTypes ret := by
  unfold Packs at hpacks
  split at hpacks
  · exact hpacks.ty_ne
  · exact hpacks.ty_ne
  · exact hpacks.elim

/-- A statement after the last pass, its bodies apart. -/
structure IsBoxed (table : SymbolTable) (p : Binary64 → Prop) (ret : Ty) (stmt : Stmt) : Prop where
  nodes : AllFixed table p stmt.nodes
  resolved : stmt.IsResolved
  silent : stmt.isPrint = false
  types : stmt.KeepsTypes ret ∨ stmt.Packs ret

end Stmt

namespace Boxing

variable {table : SymbolTable} {p : Binary64 → Prop} {e boxed : Expr}

/-- Whatever the step comes to is good, and the temporaries keep an invariant. -/
abbrev Upholds (invariant : List TempDecl → Prop) (α : Type) (step : Step α) (good : α → Prop) :
    Prop :=
  ∀ before value after, invariant before → step.run before = .ok (value, after) →
    invariant after ∧ good value

variable {invariant : List TempDecl → Prop}

theorem judgement_upholds : Judgement (Upholds invariant) := by
  refine ⟨fun hgood before value after hbefore hrun => ?_,
    fun hfirst hnext before value after hbefore hrun => ?_⟩
  · cases hrun
    exact ⟨hbefore, hgood⟩
  · rw [StateT.run_bind, Inference.bind_eq_ok] at hrun
    obtain ⟨⟨middle, temps⟩, hmiddle, hrun⟩ := hrun
    obtain ⟨htemps, hvalue⟩ := hfirst before middle temps hbefore hmiddle
    exact hnext middle hvalue temps value after htemps hrun

theorem upholds_lift {α : Type} {outcome : Except TypeError α} {good : α → Prop}
    (hgood : Ensures α outcome good) : Upholds invariant α (StateT.lift outcome) good := by
  intro before value after hbefore hrun
  simp only [StateT.run_lift, Inference.bind_eq_ok, Inference.pure_eq_ok, Prod.mk.injEq] at hrun
  obtain ⟨_, houtcome, rfl, rfl⟩ := hrun
  exact ⟨hbefore, hgood _ houtcome⟩

/-- Whatever the step comes to is good, and temporaries keep the property of their doubles. -/
abbrev Makes (p : Binary64 → Prop) (α : Type) (step : Step α) (good : α → Prop) : Prop :=
  ∀ before value after, TempDoubles p before → step.run before = .ok (value, after) →
    TempDoubles p after ∧ good value

theorem judgement_makes : Judgement (Makes p) := judgement_upholds

/-! ## Expressions -/

/-- What becomes of an expression: it keeps its type, or it was a tuple that is packed. -/
structure Boxes (table : SymbolTable) (p : Binary64 → Prop) (e boxed : Expr) : Prop where
  nodes : AllFixed table p boxed.nodes
  stored : e.access = .store → boxed.access = .store
  ty : boxed.ty = e.ty ∨ (e.isReadTuple ∧ boxed.PackedInto e.ty)

theorem Boxes.ty_of_stored (hboxes : Boxes table p e boxed) (hstored : e.access = .store) :
    boxed.ty = e.ty := by
  refine hboxes.ty.resolve_right ?_
  rintro ⟨hread, _⟩
  cases e with
  | tuple =>
      rw [Expr.access] at hstored
      rw [hstored] at hread
      cases hread
  | _ => cases hread

/-- An owned value has the type of what it owns. -/
theorem makes_own (he : AllFixed table p e.nodes) :
    Makes p _ (own e) fun owned => AllFixed table p owned.nodes ∧ owned.ty = e.ty ∧
      ∃ id, owned = .objectTemp (.annotated e.span (e.ty.getD .object)) e (some id) := by
  intro before owned after hbefore hrun
  cases hrun
  obtain ⟨ty, hty⟩ := he.self.annotated.isSome
  have hdoubles := he.self.doublesIn_ty hty
  refine ⟨tempDoubles_append hbefore doublesIn_nil, ?_, ?_, _, rfl⟩
  · simp only [hty, Option.getD_some, Expr.nodes, allFixed_cons]
    refine ⟨fixed_annotated rfl trivial rfl rfl hdoubles ?_, he⟩
    simp [Expr.formScalars, TempId.scalars]
  · rw [hty]
    rfl

/-- A value that keeps its form and gets an owner. -/
theorem boxes_own (he : AllFixed table p e.nodes) (hload : e.access = .load) :
    Makes p _ (own e) (Boxes table p e) := by
  intro before owned after hbefore hrun
  obtain ⟨hafter, hnodes, hty, _⟩ := makes_own he before owned after hbefore hrun
  refine ⟨hafter, hnodes, fun hstored => ?_, .inl hty⟩
  rw [hload] at hstored
  cases hstored

/-- A call of the host whose types have no doubles. -/
theorem fixed_call {function : Host.Function} {args : List Expr} {span : Span}
    (hsignature : DoublesIn p (function.signature args.length).scalars)
    (hargs : AllFixed table p (Expr.nodesAll args)) :
    AllFixed table p (function.call args span).nodes := by
  have hret : DoublesIn p (function.signature args.length).ret.scalars :=
    (doublesIn_append.mp hsignature).1
  simp only [Host.Function.call, Expr.nodes, allFixed_cons]
  exact ⟨fixed_annotated rfl trivial rfl rfl hret hsignature, hargs⟩

theorem fixed_packTuple {span : Span} {elts : List Expr}
    (helts : AllFixed table p (Expr.nodesAll elts)) :
    AllFixed table p (packTuple span elts).nodes := by
  refine fixed_call ?_ ?_
  · simp only [Host.Function.signature, FunctionType.scalars, Ty.scalarsAll_eq, List.flatMap_cons,
      doublesIn_append, doublesIn_flatMap]
    refine ⟨doublesIn_nil, by simp [Ty.intp, Ty.int64, Ty.scalars], fun ty hty => ?_⟩
    rw [List.eq_of_mem_replicate hty]
    exact doublesIn_nil
  · rw [Expr.nodesAll, allFixed_append]
    exact ⟨fixed_const (by simp [Ty.intp, Ty.int64, Ty.scalars])
      (by simp [Constant.scalars]), helts⟩

/-- A subscripted array is read through a pointer to its elements. -/
theorem boxes_throughPointer {note : Note} {value selector : Expr} {access : Access}
    (he : AllFixed table p (Expr.subscript note value selector access).nodes) :
    Ensures _ (throughPointer note value selector access)
      (Boxes table p (.subscript note value selector access)) := by
  intro result hthrough
  unfold throughPointer at hthrough
  split at hthrough
  · split at hthrough
    · cases hthrough
    · cases hthrough
      exact ⟨he, id, .inl rfl⟩
  · rename_i elem _ _ hty
    cases hthrough
    refine ⟨?_, id, .inl rfl⟩
    simp only [Expr.nodes, allFixed_cons, allFixed_append] at he ⊢
    obtain ⟨hself, hvalue, hselector⟩ := he
    have helem := Ty.doublesIn_array.mp (hvalue.self.doublesIn_ty hty)
    refine ⟨⟨hself.annotated, trivial, rfl, Bool.noConfusion, hself.noteDoubles, doublesIn_nil⟩,
      ⟨fixed_annotated rfl trivial rfl rfl ?_ doublesIn_nil, hvalue⟩, hselector⟩
    simpa only [Ty.scalars] using helem
  · cases hthrough
    exact ⟨he, id, .inl rfl⟩

/-- An expression above parts that are done. -/
theorem boxes_boxExpr (he : AllFixed table p e.nodes) :
    Makes p _ (boxExpr table e) (Boxes table p e) := by
  have hkept : Makes p _ (pure e) (Boxes table p e) :=
    judgement_makes.pure ⟨he, id, .inl rfl⟩
  cases e with
  | deferredCoercion => cases he.self.settled
  | tuple note elts access =>
      cases access with
      | load =>
          simp only [boxExpr]
          split
          · intro before owned after hbefore hrun
            obtain ⟨size, value, hty⟩ := he.self.tuple rfl
            have helts := (allFixed_cons.mp he).2
            obtain ⟨hafter, hnodes, _, id, rfl⟩ :=
              makes_own (fixed_packTuple helts) before owned after hbefore hrun
            exact ⟨hafter, hnodes, Access.noConfusion, .inr ⟨rfl, _, elts, id, size, value, hty, rfl⟩⟩
          · exact boxes_own he rfl
      | store => exact hkept
  | dict => exact boxes_own he rfl
  | objectCall => exact boxes_own he rfl
  | nativeCall note symbol signature args =>
      simp only [boxExpr]
      split
      · exact boxes_own he rfl
      · exact hkept
  | subscript => exact upholds_lift (boxes_throughPointer he)
  | _ => exact hkept

/-- An expression at every depth. -/
theorem boxes_rebuildM (he : AllFixed table p e.nodes) :
    Makes p _ (e.rebuildM (boxExpr table)) (Boxes table p e) := by
  refine judgement_makes.rebuildM fun node hnode parts hparts => ?_
  have hlength := hparts.length_eq.symm
  have hnodes : AllFixed table p (node.withChildren parts).nodes := by
    refine allFixed_node ((he node hnode).withChildren hlength) ?_
    rw [Expr.children_withChildren hlength]
    exact forall_of_forall₂ (fun _ _ _ hpart => hpart.nodes) hparts
  intro before boxed after hbefore hrun
  obtain ⟨hafter, hboxes⟩ := boxes_boxExpr hnodes before boxed after hbefore hrun
  refine ⟨hafter, hboxes.nodes, fun hstored => hboxes.stored (by simpa using hstored), ?_⟩
  simpa only [Expr.ty, Expr.note_withChildren, Expr.isReadTuple_withChildren] using hboxes.ty

/-! ## Statements -/

variable {ret : Ty} {body : List Stmt}

/-- What a statement with fixed types becomes when its expressions are done. -/
theorem isBoxed_of_reshaped {stmt rebuilt : Stmt} (hstmt : stmt.IsFixed table p ret)
    (hreshaped : stmt.Reshaped (Boxes table p) rebuilt) (hsilent : rebuilt.isPrint = false) :
    rebuilt.IsBoxed table p ret := by
  refine ⟨?_, hreshaped.isResolved (fun _ _ hboxes => hboxes.stored) hstmt.resolved, hsilent, ?_⟩
  · exact allFixed_nodesAll.mpr (hreshaped.forall_exprs fun _ _ _ hboxes => hboxes.nodes)
  · have htypes := hstmt.types
    cases hreshaped with
    | @assign span targets targets' value value' htargets hvalue =>
        cases htargets with
        | nil => exact .inl trivial
        | cons htarget hrest =>
            cases hrest with
            | cons => exact .inl trivial
            | nil =>
                have hstored := hstmt.resolved _ (List.mem_singleton_self _)
                have hty := htarget.ty_of_stored hstored
                simp only [Stmt.KeepsTypes, Stmt.Packs, hty] at htypes ⊢
                rw [← htypes]
                exact hvalue.ty.imp_right And.right
    | @ret span value value' hvalue =>
        cases value' with
        | none => exact .inl trivial
        | some boxed =>
            cases value with
            | none => cases hvalue
            | some value =>
                obtain ⟨hboxes, _⟩ := List.forall₂_cons.mp hvalue
                simp only [Stmt.KeepsTypes, Stmt.Packs] at htypes ⊢
                rw [← htypes]
                exact hboxes.ty.imp_right And.right
    | _ => exact .inl trivial

theorem isBoxed_printCall {span : Span} {value : Expr} (hvalue : AllFixed table p value.nodes) :
    (printCall span value).IsBoxed table p ret := by
  refine ⟨?_, trivial, rfl, .inl trivial⟩
  have hvoid : DoublesIn p (Ty.pointer .void).scalars := doublesIn_nil
  have hflags : DoublesIn p Ty.int32.scalars := by simp [Ty.int32, Ty.scalars]
  simp only [printCall, Stmt.nodes, Stmt.exprs, Expr.nodesAll, List.append_nil]
  refine fixed_call ?_ ?_
  · simp [Host.Function.signature, FunctionType.scalars, Ty.scalarsAll, Ty.int32, Ty.scalars]
  · simp only [Expr.nodesAll, List.append_nil, allFixed_append]
    exact ⟨hvalue, fixed_const hvoid doublesIn_nil,
      fixed_const hflags (by simp [Constant.scalars])⟩

/-- Preparing a body with fixed types. -/
theorem isBoxed_boxBody (hbody : ∀ stmt ∈ Stmt.nestedBody body, stmt.IsFixed table p ret) :
    Makes p _ (boxBody table body)
      (fun boxed => ∀ stmt ∈ Stmt.nestedBody boxed, stmt.IsBoxed table p ret) := by
  have hexprs (stmt : Stmt) (hstmt : stmt ∈ Stmt.nestedBody body) (e : Expr)
      (he : e ∈ stmt.exprs) : Makes p _ (e.rebuildM (boxExpr table)) (Boxes table p e) :=
    boxes_rebuildM (allFixed_nodesAll.mp (hbody stmt hstmt).nodes e he)
  have hwalk : Makes p _ (boxBody table body) (Stmt.Becomes (Stmt.IsBoxed table p ret) body) := by
    refine judgement_makes.rebuildBody hexprs fun stmt hstmt rebuilt hreshaped hbodies => ?_
    have hrebuilt := isBoxed_of_reshaped (hbody stmt hstmt) hreshaped
    cases rebuilt with
    | print span values dest newline =>
        cases dest with
        | some =>
            intro before boxed after _ hrun
            cases hrun
        | none =>
            refine judgement_makes.pure ?_
            rw [nestedBody_printCalls]
            refine List.forall_mem_map.mpr fun value hvalue => isBoxed_printCall ?_
            have hnodes : ∀ e ∈ (Stmt.print span values none newline).exprs,
                AllFixed table p e.nodes :=
              hreshaped.forall_exprs fun _ _ _ hboxes => hboxes.nodes
            exact hnodes value hvalue
    | _ => exact judgement_makes.pure (Stmt.forall_nested (hrebuilt rfl) hbodies)
  intro before boxed after hbefore hrun
  obtain ⟨hafter, hbecomes⟩ := hwalk before boxed after hbefore hrun
  exact ⟨hafter, hbecomes.good⟩

end Boxing

/-! ## Functions -/

/-- What compilation leaves of a function: statements after the last pass, temporaries, and the
value that stands for a failure. -/
structure Compiled.IsDone (p : Binary64 → Prop) (compiled : Compiled) : Prop where
  statements : ∀ stmt ∈ compiled.func.statements,
    stmt.IsBoxed compiled.symbols p compiled.signature.ret
  temps : TempDoubles p compiled.func.temps
  failureExpr : compiled.func.failureExpr = failureValue compiled.signature.ret compiled.func.span

namespace FunctionDef

variable {setting : Inference.Setting} {func : FunctionDef} {signature : Signature}
  {compiled : Compiled} {p : Binary64 → Prop}

/-- Compiling a function of the source. -/
theorem isDone_compile (hsetting : setting.HasDoubles p)
    (hfunc : Inference.SourceFunction p func) (htemps : TempDoubles p func.temps)
    (hsignature : Inference.SignatureDoubles p signature)
    (hcompile : Pass.SucceedsWith (Resolution.HasDoubles p) (func.compile setting signature)
      compiled) : compiled.IsDone p := by
  obtain ⟨_, _, hcompile⟩ := Pass.exists_of_succeedsWith_bind hcompile
  obtain ⟨inferred, hinfer, hcompile⟩ := Pass.exists_of_succeedsWith_bind hcompile
  have hdone := (Inference.done_inferFunction hsetting hfunc hsignature).good hinfer
  have hrest := hcompile.succeeds
  simp only [Pass.succeeds_bind, Pass.succeeds_pure] at hrest
  obtain ⟨typed, htyped, counted, hcounted, boxed, hboxed, _, _, rfl⟩ := hrest
  obtain ⟨htyped, hkept⟩ := fixed_typed hfunc.source hinfer.succeeds hdone htyped
  obtain ⟨hcounted, htemps⟩ := fixed_counted hsetting.index htyped (hkept ▸ htemps) hcounted
  simp only [FunctionDef.boxed, Pass.succeeds_bind, Pass.succeeds_ofExcept, Pass.succeeds_pure,
    box, Inference.bind_eq_ok, Inference.pure_eq_ok, Prod.exists] at hboxed
  obtain ⟨_, ⟨body, temps, hbody, rfl⟩, _, _, rfl⟩ := hboxed
  obtain ⟨hafter, hstatements⟩ := isBoxed_boxBody hcounted _ _ _ htemps hbody
  exact ⟨hstatements, hafter, rfl⟩

end FunctionDef

/-! ## What a backend relies on -/

/-- The type of its binding is fixed on an expression, no choice of its form is left open, and no
conversion waits for its type. -/
structure Expr.IsFinished (table : SymbolTable) (e : Expr) : Prop where
  annotated : e.IsAnnotated table
  resolved : e.IsResolved
  settled : e.isDeferred = false

theorem Expr.IsFixed.isFinished {table : SymbolTable} {p : Binary64 → Prop} {e : Expr}
    (he : e.IsFixed table p) : e.IsFinished table :=
  ⟨he.annotated, he.resolved, he.settled⟩

/-- A statement stores plainly, has no `else` body below a loop and does not print. -/
structure Stmt.IsFinished (stmt : Stmt) : Prop where
  resolved : stmt.IsResolved
  silent : stmt.isPrint = false

/-- All statements of a function and all expressions in it are finished, at every depth, and so is
the value that stands for a failure. -/
structure FunctionDef.IsFinished (table : SymbolTable) (func : FunctionDef) : Prop where
  statements : ∀ stmt ∈ func.statements, stmt.IsFinished
  nodes : ∀ node ∈ func.nodes, node.IsFinished table
  failure : ∀ value ∈ func.failureExpr, ∀ node ∈ value.nodes, node.IsFinished table

/-- The value that stands for a failure is a constant with a type of its own. -/
theorem Boxing.isFinished_failureValue {table : SymbolTable} {ret : Ty} {span : Span} {value : Expr}
    (hvalue : failureValue ret span = some value) :
    ∀ node ∈ value.nodes, node.IsFinished table := by
  have hconst (c : Constant) (ty : Ty)
      (hsome : some (.const (.annotated span ty) c) = some value) :
      ∀ node ∈ value.nodes, node.IsFinished table := by
    obtain rfl := Option.some.inj hsome
    exact List.forall_mem_singleton.mpr ⟨⟨ty, .typed ty, rfl, rfl, rfl⟩, trivial, rfl⟩
  unfold failureValue at hvalue
  split at hvalue
  case h_6 => cases hvalue
  all_goals exact hconst _ _ hvalue

namespace FunctionDef

variable {setting : Inference.Setting} {func : FunctionDef} {signature : Signature}
  {compiled : Compiled}

/-- Compiling a function of the source, whatever its doubles are. -/
theorem isDone_of_isSource (hsource : func.IsSource)
    (hcompile : Pass.Succeeds (func.compile setting signature) compiled) :
    compiled.IsDone fun _ => True := by
  have hsetting : setting.HasDoubles fun _ => True :=
    ⟨doublesIn_true, doublesIn_true, doublesIn_true, fun _ => doublesIn_true,
      fun _ => doublesIn_true⟩
  refine isDone_compile hsetting ⟨hsource, fun _ _ => doublesIn_true⟩ (fun _ _ => doublesIn_true)
    ⟨fun _ _ => doublesIn_true, fun _ _ => doublesIn_true⟩ (hcompile.succeedsWith fun answer => ?_)
  cases answer with
  | native => exact doublesIn_true
  | host => trivial

/-- A compiled function is finished: every expression has the type of its binding fixed on it, and
only forms are left that a backend knows. -/
theorem isFinished_compile (hsource : func.IsSource)
    (hcompile : Pass.Succeeds (func.compile setting signature) compiled) :
    compiled.func.IsFinished compiled.symbols := by
  obtain ⟨hstatements, _, hfailure⟩ := isDone_of_isSource hsource hcompile
  refine ⟨fun stmt hstmt => ?_, fun node hnode => ?_, fun value hvalue => ?_⟩
  · exact ⟨(hstatements stmt hstmt).resolved, (hstatements stmt hstmt).silent⟩
  · obtain ⟨stmt, hstmt, hnode⟩ := List.mem_flatMap.mp hnode
    exact ((hstatements stmt hstmt).nodes node hnode).isFinished
  · exact isFinished_failureValue (hfailure.symm.trans hvalue)

end FunctionDef

/-- A function that counts a loop, updates a place, branches on a condition of two parts, prints and
returns. -/
def averaging : FunctionDef :=
  open Builder in
  function "averaging" ["xs", "n"]
    [assign (store "total") (float ⟨0⟩),
      forIn (store "x") (load "xs") [augAssign (store "total") .add (load "x")],
      branch (.boolOp {} .or [compare (int 0) .lt (load "n"), load "n"]) [print [load "total"]] [],
      ret (some (binOp (load "total") .div (load "n")))]

theorem isSource_averaging : averaging.IsSource := by
  refine ⟨?_, rfl⟩
  simp only [averaging, Builder.function, FunctionDef.statements, Stmt.nestedBody, Stmt.nested,
    Builder.assign, Builder.forIn, Builder.augAssign, Builder.branch, Builder.print, Builder.ret,
    Stmt.IsSource, Stmt.exprs, Option.toList_none, Option.toList_some, List.nil_append,
    List.append_nil, List.cons_append, List.forall_mem_cons, List.not_mem_nil, false_imp_iff,
    implies_true, and_true]
  exact ⟨⟨.name, by decide⟩, ⟨.name, by decide⟩,
    ⟨.name, by decide⟩, by decide, by decide, by decide⟩

theorem isFinished_compile_averaging : ∃ compiled, averaging.IsSource ∧
    Pass.Succeeds (averaging.compile globalsOnly { args := [.strided .float64 1, .int64] })
      compiled ∧
    compiled.signature.ret = .float64 ∧ compiled.func.failureExpr.isSome ∧
    compiled.func.IsFinished compiled.symbols := by
  obtain ⟨compiled, hcompile, htest⟩ : ∃ compiled,
      Pass.Succeeds (averaging.compile globalsOnly { args := [.strided .float64 1, .int64] })
        compiled ∧
      decide (compiled.signature.ret = .float64 ∧ compiled.func.failureExpr.isSome) = true :=
    Pass.exists_succeeds (fun _ _ => .host) (by decide +kernel)
  obtain ⟨hret, hfailure⟩ := of_decide_eq_true htest
  exact ⟨compiled, isSource_averaging, hcompile, hret, hfailure,
    FunctionDef.isFinished_compile isSource_averaging hcompile⟩

/-! ## Stores and returns -/

/-- In a compiled function the types of what is stored and of its place agree, and those of what is
returned and of the result, exactly where no tuple of boxed values is packed. -/
theorem FunctionDef.keepsTypes_compile_iff {setting : Inference.Setting} {func : FunctionDef}
    {signature : Signature} {compiled : Compiled} (hsource : func.IsSource)
    (hcompile : Pass.Succeeds (func.compile setting signature) compiled) :
    ∀ stmt ∈ compiled.func.statements,
      stmt.KeepsTypes compiled.signature.ret ↔ ¬ stmt.Packs compiled.signature.ret := by
  intro stmt hstmt
  have htypes := ((isDone_of_isSource hsource hcompile).statements stmt hstmt).types
  exact ⟨fun hkeeps hpacks => hpacks.not_keepsTypes hkeeps, htypes.resolve_right⟩

/-- `t = (a, b); u = (a, 1); return a`: for boxed `a` and `b`, a tuple that is packed and one that is
not. -/
def packing : FunctionDef :=
  open Builder in
  function "packing" ["a", "b"]
    [assign (store "t") (tuple [load "a", load "b"]),
      assign (store "u") (tuple [load "a", int 1]), ret (some (load "a"))]

theorem isSource_packing : packing.IsSource := by
  refine ⟨?_, rfl⟩
  simp only [packing, Builder.function, FunctionDef.statements, Stmt.nestedBody, Stmt.nested,
    Builder.assign, Builder.ret, Stmt.IsSource, Stmt.exprs, Option.toList_some, List.append_nil,
    List.cons_append, List.nil_append, List.forall_mem_cons, List.not_mem_nil, false_imp_iff,
    implies_true, and_true]
  exact ⟨⟨.name, by decide⟩, ⟨.name, by decide⟩, by decide⟩

theorem keepsTypes_compile_iff_packing : ∃ compiled, packing.IsSource ∧
    Pass.Succeeds (packing.compile globalsOnly { args := [.object, .object] }) compiled ∧
    (compiled.func.statements.map fun stmt => decide (stmt.KeepsTypes compiled.signature.ret)) =
      [false, true, true] ∧
    ∀ stmt ∈ compiled.func.statements,
      stmt.KeepsTypes compiled.signature.ret ↔ ¬ stmt.Packs compiled.signature.ret := by
  obtain ⟨compiled, hcompile, htest⟩ : ∃ compiled,
      Pass.Succeeds (packing.compile globalsOnly { args := [.object, .object] }) compiled ∧
      decide ((compiled.func.statements.map fun stmt =>
        decide (stmt.KeepsTypes compiled.signature.ret)) = [false, true, true]) = true :=
    Pass.exists_succeeds (fun _ _ => .host) (by decide +kernel)
  exact ⟨compiled, isSource_packing, hcompile, of_decide_eq_true htest,
    FunctionDef.keepsTypes_compile_iff isSource_packing hcompile⟩

/-- A compiled function of the source stores a boxed value in a place for tuples. -/
theorem packing_breaks_types : packing.IsSource ∧ ∃ compiled,
    Pass.Succeeds (packing.compile globalsOnly { args := [.object, .object] }) compiled ∧
    ∃ stmt ∈ compiled.func.statements, ¬ stmt.KeepsTypes compiled.signature.ret := by
  obtain ⟨compiled, hcompile, htest⟩ : ∃ compiled,
      Pass.Succeeds (packing.compile globalsOnly { args := [.object, .object] }) compiled ∧
      decide (∃ stmt ∈ compiled.func.statements,
        ¬ stmt.KeepsTypes compiled.signature.ret) = true :=
    Pass.exists_succeeds (fun _ _ => .host) (by decide +kernel)
  exact ⟨isSource_packing, compiled, hcompile, of_decide_eq_true htest⟩

end KernelFront
