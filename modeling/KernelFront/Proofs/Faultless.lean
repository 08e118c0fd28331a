import KernelFront.Proofs.Inference.Faultless
import KernelFront.Proofs.Packing

/-! # Compilation without faults

No fault stops a compilation for ranked types, and what it comes to is valid: every type in it is
ranked and every symbol is in its table. Inference leaves a valid body, and each of the later passes
keeps a body valid. They replace expressions and add new ones, whose types are made of those that
are there; they refer to no symbols of their own, so the symbols that they look up are in the table.
-/

namespace KernelFront

open Guarded (Faultless Spared runState watch)
open Inference (AllValid ValidBody allValid_append allValid_cons allValid_nil allValid_nodesAll
  allValid_one allValid_two valid_annotated valid_convert)

variable {size : Nat} {table : SymbolTable} {span : Span} {ty : Ty} {e : Expr}

/-! ## Valid nodes -/

/-- A node that has the binding, the types and the symbols of a valid one. -/
theorem Expr.Valid.congr {other : Expr} (he : e.Valid size) (hbinding : other.binding = e.binding)
    (hty : ∀ ty, other.ty = some ty → ty.Ranked) (hform : other.formTypes = e.formTypes)
    (hsymbols : other.ownSymbols = e.ownSymbols) : other.Valid size :=
  ⟨hty, hbinding ▸ he.own, hform ▸ he.form, hsymbols ▸ he.symbols⟩

/-- The type that is fixed on a valid node, or another ranked one. -/
theorem Expr.Valid.ranked_getD (he : e.Valid size) (hty : ty.Ranked) :
    (e.ty.getD ty).Ranked := by
  cases hfixed : e.ty with
  | none => exact hty
  | some found => exact he.note found hfixed

/-- A valid node above other parts. -/
theorem valid_withChildren {parts : List Expr} (he : e.Valid size)
    (hlength : parts.length = e.children.length)
    (hparts : ∀ part ∈ parts, AllValid size part.nodes) :
    AllValid size (e.withChildren parts).nodes := by
  rw [Expr.nodes_eq, Expr.children_withChildren hlength]
  refine allValid_cons.mpr ⟨?_, allValid_nodesAll.mpr hparts⟩
  have hnote := Expr.note_withChildren e parts
  refine he.congr (congrArg Note.binding hnote) ?_ ?_ ?_
  · rw [Expr.ty, hnote]
    exact he.note
  · unfold Expr.withChildren
    split <;> rfl
  · unfold Expr.withChildren
    split <;> rfl

theorem valid_withTy (he : AllValid size e.nodes) (hty : ty.Ranked) :
    AllValid size (e.withTy ty).nodes := by
  have hnote : (e.withTy ty).note = { e.note with ty := some ty } := Expr.note_withNote _ e
  rw [Expr.nodes_eq] at he ⊢
  obtain ⟨hself, hparts⟩ := allValid_cons.mp he
  have hbinding : (e.withTy ty).binding = e.binding := by rw [Expr.binding, hnote, Expr.binding]
  refine allValid_cons.mpr ⟨hself.congr hbinding ?_ ?_ ?_, ?_⟩
  · rw [Expr.ty, hnote]
    rintro _ ⟨⟩
    exact hty
  · cases e <;> rfl
  · cases e <;> rfl
  · rw [Expr.withTy, Expr.children_withNote]
    exact hparts

theorem valid_withAccess {access : Access} (he : AllValid size e.nodes) :
    AllValid size (e.withAccess access).nodes := by
  have hnote : (e.withAccess access).note = e.note := by cases e <;> rfl
  rw [Expr.nodes_eq, Expr.children_withAccess]
  rw [Expr.nodes_eq] at he
  obtain ⟨hself, hparts⟩ := allValid_cons.mp he
  refine allValid_cons.mpr ⟨hself.congr (congrArg Note.binding hnote) ?_ ?_ ?_, hparts⟩
  · rw [Expr.ty, hnote]
    exact hself.note
  · cases e <;> rfl
  · cases e <;> rfl

/-! ## Guarded walks -/

section Walks

variable {m : Type → Type} [Monad m] [LawfulMonad m]
  {Gives : ∀ α : Type, Guarded m α → m α → (α → Prop) → Prop}
  {f : Expr → Guarded m Expr} {g : Expr → m Expr}

theorem Guarded.coupling_faultless {allowed : Resolution → Prop} :
    Coupling fun (α : Type) (guarded : Guarded Pass α) (pass : Pass α) (good : α → Prop) =>
      Faultless allowed good guarded pass :=
  ⟨faultless_pure, faultless_bind⟩

theorem Guarded.coupling_spared :
    Coupling fun (α : Type) (guarded : Guarded (Except TypeError) α) (outcome : Except TypeError α)
      (good : α → Prop) => Spared good guarded.run outcome := by
  refine ⟨fun hgood => .done hgood, fun hfirst hnext => ?_⟩
  cases hfirst with
  | refused error => exact .refused error
  | done hgood => exact hnext _ hgood

/-- Computations that keep a state are coupled if they are at every state with an invariant, which
they keep. -/
theorem Coupling.runState {σ : Type} {invariant : σ → Prop} (hcouples : Coupling Gives) :
    Coupling fun (α : Type) (guarded : Guarded (StateT σ m) α) (pass : StateT σ m α)
      (good : α → Prop) => ∀ before, invariant before →
        Gives (α × σ) (runState guarded before) (pass.run before)
          (fun (value, after) => invariant after ∧ good value) := by
  refine ⟨fun hgood before hbefore => ?_, fun hfirst hnext before hbefore => ?_⟩
  · rw [Guarded.runState_pure, StateT.run_pure]
    exact hcouples.pure ⟨hbefore, hgood⟩
  · rw [Guarded.runState_bind, StateT.run_bind]
    exact hcouples.bind (hfirst before hbefore) fun (value, middle) ⟨hmiddle, hvalue⟩ =>
      hnext value hvalue middle hmiddle

/-- A valid expression stays valid if each node above valid parts does. -/
theorem valid_rebuildM (hcouples : Coupling Gives)
    (hnode : ∀ node : Expr, AllValid size node.nodes →
      Gives _ (f node) (g node) fun rebuilt => AllValid size rebuilt.nodes)
    (he : AllValid size e.nodes) :
    Gives _ (e.rebuildM f) (e.rebuildM g) fun rebuilt => AllValid size rebuilt.nodes := by
  refine hcouples.rebuildM fun node hmem parts hparts => hnode _ ?_
  refine valid_withChildren (he node hmem) hparts.length_eq.symm ?_
  exact forall_of_forall₂ (fun _ _ _ hpart => hpart) hparts

/-- A valid body stays valid if each statement above valid bodies does. -/
theorem valid_rebuildBodyM {h : Stmt → Guarded m (List Stmt)} {k : Stmt → m (List Stmt)}
    {body : List Stmt} (hcouples : Coupling Gives)
    (hnode : ∀ node : Expr, AllValid size node.nodes →
      Gives _ (f node) (g node) fun rebuilt => AllValid size rebuilt.nodes)
    (hstmt : ∀ stmt : Stmt, AllValid size stmt.nodes →
      (∀ body ∈ stmt.bodies, ValidBody size body) → Gives _ (h stmt) (k stmt) (ValidBody size))
    (hbody : ValidBody size body) :
    Gives _ (Stmt.rebuildBodyM f h body) (Stmt.rebuildBodyM g k body) (ValidBody size) := by
  have hwalk : Gives _ (Stmt.rebuildBodyM f h body) (Stmt.rebuildBodyM g k body)
      (Stmt.Becomes (fun stmt => AllValid size stmt.nodes) body) := by
    refine hcouples.rebuildBody (fun stmt hmem e he => valid_rebuildM hcouples hnode ?_)
      fun stmt hmem rebuilt hreshaped hbodies => hstmt rebuilt ?_ hbodies
    · exact allValid_nodesAll.mp (hbody stmt hmem) e he
    · exact allValid_nodesAll.mpr (hreshaped.forall_exprs fun _ _ _ hrebuilt => hrebuilt)
  have hgood : Gives _ (Stmt.rebuildBodyM f h body >>= pure) (Stmt.rebuildBodyM g k body >>= pure)
      (ValidBody size) := hcouples.bind hwalk fun result hresult => hcouples.pure hresult.good
  rwa [bind_pure, bind_pure] at hgood

theorem Guarded.watch_node (he : AllValid table.size e.nodes) {α : Type} (step : m α) :
    watch table [e] step = ExceptT.lift step :=
  watch_of_lt (allValid_one.mpr he).symbols step

end Walks

/-! ## Fixing types -/

theorem valid_resolveDeferred {resolved : Expr} (htable : table.Valid)
    (he : AllValid size e.nodes) (hresolve : e.resolveDeferred table = .ok resolved) :
    AllValid size resolved.nodes := by
  unfold Expr.resolveDeferred at hresolve
  split at hresolve
  next note node slot =>
    split at hresolve
    next target htarget =>
      cases hresolve
      obtain ⟨var, hvar, hvarTy⟩ := Option.bind_eq_some_iff.mp htarget
      exact valid_convert (allValid_cons.mp he).2 ((htable.get? hvar).ranked target hvarTy)
    next => cases hresolve
  next =>
    cases hresolve
    exact he

theorem valid_fixType (htable : table.Valid) (he : AllValid size e.nodes) :
    Ensures _ (e.fixType table) fun fixed => AllValid size fixed.nodes := by
  intro fixed hfix
  simp only [Expr.fixType, Inference.bind_eq_ok] at hfix
  obtain ⟨resolved, hresolved, hfix⟩ := hfix
  have hvalid := valid_resolveDeferred htable he hresolved
  split at hfix
  next ty hty =>
    cases hfix
    exact valid_withTy hvalid (Inference.ranked_typeIn? htable hvalid.self hty)
  next => cases hfix

/-! ## Counting loops -/

/-- The types of temporaries are ranked. -/
def RankedTemps (temps : List TempDecl) : Prop := ∀ decl ∈ temps, decl.ty.Ranked

theorem rankedTemps_append {temps : List TempDecl} {kind : TempKind} {id : TempId}
    (htemps : RankedTemps temps) (hty : ty.Ranked) : RankedTemps (temps ++ [⟨id, ty, kind⟩]) :=
  List.forall_mem_append.mpr ⟨htemps, List.forall_mem_singleton.mpr hty⟩

theorem keeps_allocate {kind : TempKind} (hty : ty.Ranked) :
    Pass.Keeps Contract.ranked RankedTemps (fun _ => True) (allocate ty kind) :=
  fun _ hbefore => Pass.obeys_pure ⟨rankedTemps_append hbefore hty, trivial⟩

theorem valid_const {value : Constant} (hty : ty.Ranked) :
    AllValid size (Expr.const (.annotated span ty) value).nodes := by
  simp only [Expr.nodes, allValid_cons, allValid_nil, and_true]
  exact valid_annotated rfl rfl (List.forall_mem_nil _) hty

namespace Loops

variable {indexType : Ty} {target iter array : Expr} {body orelse : List Stmt}

theorem valid_temp {id : TempId} {access : Access} (hty : ty.Ranked) :
    AllValid size (temp id access ty span).nodes := by
  simp only [temp, Expr.nodes, allValid_cons, allValid_nil, and_true]
  exact valid_annotated rfl rfl (List.forall_mem_nil _) hty

theorem valid_arrayLength (harray : AllValid size array.nodes) :
    AllValid size (arrayLength array span).nodes := by
  have hintp : Ty.intp.Ranked := Ty.ranked_of_layouts rfl
  simp only [arrayLength, Expr.nodes, allValid_cons, allValid_append]
  exact ⟨valid_annotated rfl rfl (List.forall_mem_nil _) hintp,
    ⟨valid_annotated rfl rfl (List.forall_mem_nil _) (Ty.ranked_of_layouts rfl), harray⟩,
    valid_const hintp⟩

theorem valid_positions (hindex : indexType.Ranked) (harray : AllValid size array.nodes) :
    AllValid size (positions table indexType array span).nodes := by
  simp only [positions, Expr.nodes, allValid_cons, allValid_append]
  exact ⟨valid_annotated rfl rfl (List.forall_mem_nil _) (Ty.ranked_of_layouts rfl),
    ⟨valid_const hindex, valid_convert (valid_arrayLength harray) hindex⟩, valid_const hindex⟩

theorem valid_storeElement {elem : Ty} {counter : Expr} (helem : elem.Ranked)
    (htarget : AllValid size target.nodes) (harray : AllValid size array.nodes)
    (hcounter : AllValid size counter.nodes) :
    AllValid size (storeElement table target array counter elem span).nodes := by
  have helement :
      AllValid size (Expr.subscript (.annotated span elem) array counter .load).nodes := by
    simp only [Expr.nodes, allValid_cons, allValid_append]
    exact ⟨valid_annotated rfl rfl (List.forall_mem_nil _) helem, harray, hcounter⟩
  have htargetTy := htarget.self.ranked_getD Inference.ranked_object
  exact allValid_two.mpr ⟨htarget, valid_convert helement htargetTy⟩

/-- A loop above a valid body. -/
theorem validBody_forIn {index : Expr} (htarget : AllValid size target.nodes)
    (hiter : AllValid size iter.nodes) (hindex : AllValid size index.nodes)
    (hbody : ValidBody size body) (horelse : ValidBody size orelse) :
    ValidBody size [.forIn span target iter body orelse (some index)] := by
  refine Inference.validBody_singleton ?_ ?_
  · simp only [Stmt.nodes, Stmt.exprs, Option.toList_some, Expr.nodesAll, List.append_nil,
      allValid_append]
    exact ⟨htarget, hiter, hindex⟩
  · exact List.forall_mem_cons.mpr ⟨hbody, List.forall_mem_singleton.mpr horelse⟩

theorem keeps_evaluateOnce (hiter : AllValid size iter.nodes) (hty : ty.Ranked) :
    Pass.Keeps Contract.ranked RankedTemps
      (fun (setup, array) => ValidBody size setup ∧ AllValid size array.nodes)
      (evaluateOnce iter ty) := by
  unfold evaluateOnce
  split
  · exact Pass.keeps_pure ⟨Inference.validBody_nil, hiter⟩
  · refine Pass.keeps_bind (keeps_allocate hty) fun id _ => Pass.keeps_pure ⟨?_, valid_temp hty⟩
    exact Inference.validBody_assign (valid_temp hty) hiter

theorem keeps_lowerLoop (hindex : indexType.Ranked) (htarget : AllValid size target.nodes)
    (hiter : AllValid size iter.nodes) (hbody : ValidBody size body)
    (horelse : ValidBody size orelse) :
    Pass.Keeps Contract.ranked RankedTemps (ValidBody size)
      (lowerLoop table indexType span target iter body orelse) := by
  unfold lowerLoop
  split
  · exact Pass.keeps_throw
  · have hvoid : Ty.void.Ranked := Ty.ranked_of_layouts rfl
    have hiterTy := hiter.self.ranked_getD hvoid
    generalize iter.ty.getD .void = iterTy at hiterTy
    have hreport (lowered : List Stmt) (hlowered : ValidBody size lowered) :
        Pass.Keeps Contract.ranked RankedTemps (ValidBody size) (do
          StateT.lift (Pass.report .debug ("[iterable] lowered loop over " ++ iterTy.text))
          pure lowered) :=
      Pass.keeps_bind (Pass.keeps_lift Pass.obeys_report) fun _ _ => Pass.keeps_pure hlowered
    dsimp only
    split
    · refine Pass.keeps_bind (Pass.keeps_pure ?_) hreport
      exact validBody_forIn htarget hiter (valid_withAccess htarget) hbody horelse
    · refine Pass.keeps_bind (keeps_evaluateOnce hiter hiterTy) ?_
      rintro ⟨setup, array⟩ ⟨hsetup, harray⟩
      refine Pass.keeps_bind (keeps_allocate hindex) fun id _ => ?_
      refine Pass.keeps_bind (Pass.keeps_pure ?_) hreport
      have helem := (Ty.ranked_array.mp hiterTy).2
      have hcounter : AllValid size (temp id .load indexType span).nodes := valid_temp hindex
      refine Inference.validBody_append hsetup ?_
      refine validBody_forIn htarget (valid_positions hindex harray) hcounter ?_ horelse
      exact List.forall_mem_cons.mpr
        ⟨valid_storeElement helem htarget harray hcounter, hbody⟩
    · exact Pass.keeps_bind Pass.keeps_throw hreport

theorem keeps_lowerStmt {stmt : Stmt} (hindex : indexType.Ranked)
    (hstmt : AllValid size stmt.nodes) (hbodies : ∀ body ∈ stmt.bodies, ValidBody size body) :
    Pass.Keeps Contract.ranked RankedTemps (ValidBody size) (lowerStmt table indexType stmt) := by
  cases stmt with
  | forIn span target iter body orelse index =>
      obtain ⟨htarget, hrest⟩ := allValid_append.mp hstmt
      obtain ⟨hbody, horelse⟩ := List.forall_mem_cons.mp hbodies
      exact keeps_lowerLoop hindex htarget (allValid_append.mp hrest).1 hbody
        (horelse _ List.mem_cons_self)
  | _ => exact Pass.keeps_pure (Inference.validBody_singleton hstmt hbodies)

end Loops

/-! ## Owning boxed values -/

namespace Boxing

variable {note : Note} {value selector : Expr} {access : Access}

theorem upholds_own (he : AllValid size e.nodes) :
    Upholds RankedTemps _ (own e) fun owned => AllValid size owned.nodes := by
  intro before owned after hbefore hrun
  cases hrun
  refine ⟨rankedTemps_append hbefore Inference.ranked_object, ?_⟩
  have hty := he.self.ranked_getD Inference.ranked_object
  exact allValid_cons.mpr ⟨valid_annotated rfl rfl (List.forall_mem_nil _) hty, he⟩

theorem valid_packTuple {elts : List Expr} (helts : AllValid size (Expr.nodesAll elts)) :
    AllValid size (packTuple span elts).nodes :=
  Inference.valid_hostFunction
    (allValid_append.mpr ⟨valid_const (Ty.ranked_of_layouts rfl), helts⟩)

theorem valid_throughPointer
    (he : AllValid size (Expr.subscript note value selector access).nodes) :
    Ensures _ (throughPointer note value selector access) fun result =>
      AllValid size result.nodes := by
  intro result hthrough
  unfold throughPointer at hthrough
  split at hthrough
  · split at hthrough
    · cases hthrough
    · cases hthrough
      exact he
  next array elem _ _ hty =>
    cases hthrough
    simp only [Expr.nodes, allValid_cons, allValid_append] at he ⊢
    obtain ⟨hself, hvalue, hselector⟩ := he
    have helem : (Ty.pointer elem).Ranked := (Ty.ranked_array.mp (hvalue.self.note _ hty)).2
    exact ⟨hself.congr rfl hself.note rfl rfl,
      ⟨valid_annotated rfl rfl (List.forall_mem_nil _) helem, hvalue⟩, hselector⟩
  · cases hthrough
    exact he

theorem upholds_boxExpr (htable : table.Valid) (he : AllValid size e.nodes) :
    Upholds RankedTemps _ (boxExpr table e) fun boxed => AllValid size boxed.nodes := by
  have hkept : Upholds RankedTemps _ (pure e) fun boxed => AllValid size boxed.nodes :=
    judgement_upholds.pure he
  cases e with
  | deferredCoercion =>
      exact upholds_lift fun resolved hresolve => valid_resolveDeferred htable he hresolve
  | tuple note elts access =>
      cases access with
      | load =>
          simp only [boxExpr]
          split
          · exact upholds_own (valid_packTuple (allValid_cons.mp he).2)
          · exact upholds_own he
      | store => exact hkept
  | dict | objectCall => exact upholds_own he
  | nativeCall note symbol signature args =>
      simp only [boxExpr]
      split
      · exact upholds_own he
      · exact hkept
  | subscript => exact upholds_lift (valid_throughPointer he)
  | _ => exact hkept

theorem valid_printCall (hvalue : AllValid size value.nodes) :
    AllValid size (printCall span value).nodes := by
  refine allValid_one.mpr (Inference.valid_hostFunction (allValid_append.mpr ⟨hvalue, ?_⟩))
  exact allValid_two.mpr
    ⟨valid_const (Ty.ranked_of_layouts rfl), valid_const (Ty.ranked_of_layouts rfl)⟩

theorem upholds_boxStmt {stmt : Stmt} (hstmt : AllValid size stmt.nodes)
    (hbodies : ∀ body ∈ stmt.bodies, ValidBody size body) :
    Upholds RankedTemps _ (boxStmt stmt) (ValidBody size) := by
  cases stmt with
  | print span values dest newline =>
      cases dest with
      | some =>
          intro before boxed after _ hrun
          cases hrun
      | none =>
          refine judgement_upholds.pure ?_
          rw [ValidBody, nestedBody_printCalls]
          refine List.forall_mem_map.mpr fun value hvalue => valid_printCall ?_
          exact allValid_nodesAll.mp hstmt value hvalue
  | _ => exact judgement_upholds.pure (Inference.validBody_singleton hstmt hbodies)

theorem valid_failureValue {ret : Ty} {failure : Expr} (hret : ret.Ranked)
    (hfailure : failureValue ret span = some failure) : AllValid size failure.nodes := by
  unfold failureValue at hfailure
  split at hfailure
  case h_6 => cases hfailure
  all_goals
    cases hfailure
    first
    | exact valid_const hret
    | exact valid_const Inference.ranked_object

end Boxing

/-! ## Functions -/

/-- The expressions of a function are valid, and its temporaries have ranked types. -/
structure FunctionDef.Valid (size : Nat) (func : FunctionDef) : Prop where
  body : ValidBody size func.body
  temps : RankedTemps func.temps

/-- A function that no pass has treated: no loop is counted, nothing stands for a failure, and there
are no temporaries but such of ranked types. -/
structure FunctionDef.Untreated (func : FunctionDef) : Prop where
  uncounted : ∀ stmt ∈ func.statements, stmt.Uncounted
  failure : func.errorReturn = none
  temps : RankedTemps func.temps

/-- A function of the source, which has no temporaries. -/
theorem FunctionDef.IsSource.untreated {func : FunctionDef} (hsource : func.IsSource)
    (htemps : func.temps = []) : func.Untreated := by
  refine ⟨fun stmt hstmt => (hsource.statements stmt hstmt).uncounted, hsource.errorReturn, ?_⟩
  rw [htemps]
  exact List.forall_mem_nil _

/-- All types of a compiled function are ranked, and all its symbols are in its table. -/
structure Compiled.Valid (compiled : Compiled) : Prop where
  signature : compiled.signature.Ranked
  symbols : compiled.symbols.Valid
  func : compiled.func.Valid compiled.symbols.size
  failure : ∀ value ∈ compiled.func.failureExpr, AllValid compiled.symbols.size value.nodes

namespace Guarded

variable {func : FunctionDef} {body : List Stmt} {allowed : Resolution → Prop}

theorem faultless_ofExcept {α : Type} {guarded : Guarded (Except TypeError) α}
    {outcome : Except TypeError α} {good : α → Prop} (hspared : Spared good guarded.run outcome) :
    Faultless allowed good (ofExcept guarded) (Pass.ofExcept outcome) :=
  .done hspared

theorem spared_lift {α : Type} {outcome : Except TypeError α} {good : α → Prop}
    (hgood : Ensures α outcome good) : Spared good (ExceptT.lift outcome).run outcome := by
  cases outcome with
  | error error => exact .refused error
  | ok value => exact .done (hgood value rfl)

theorem spared_fixBody (htable : table.Valid) (hbody : ValidBody table.size body) :
    Spared (ValidBody table.size)
      (Stmt.rebuildBodyM (fun e => watch table [e] (e.fixType table))
        (fun stmt => pure [stmt]) body : Guarded (Except TypeError) (List Stmt)).run
      (Stmt.fixTypes table body) := by
  refine valid_rebuildBodyM coupling_spared (fun node hnode => ?_)
    (fun stmt hstmt hbodies => .done (Inference.validBody_singleton hstmt hbodies)) hbody
  rw [watch_node hnode]
  exact spared_lift (valid_fixType htable hnode)

theorem faultless_typed (htable : table.Valid) (hfunc : func.Valid table.size)
    (hfailure : func.errorReturn = none) :
    Faultless Resolution.Ranked (FunctionDef.Valid table.size) (typed table func)
      (func.typed table) := by
  refine faultless_bind (faultless_ofExcept ?_) fun typed htyped =>
    faultless_bind faultless_report fun _ _ => faultless_pure htyped
  simp only [fixTypes, FunctionDef.fixTypes, hfailure]
  exact coupling_spared.bind (spared_fixBody htable hfunc.body) fun body hbody =>
    .done ⟨hbody, hfunc.temps⟩

/-- Counting the loops of a valid body. -/
theorem faultless_lowerBody {indexType : Ty} {temps : List TempDecl} (hindex : indexType.Ranked)
    (hbody : ValidBody table.size body) (htemps : RankedTemps temps) :
    Faultless Resolution.Ranked
      (fun (lowered, after) => RankedTemps after ∧ ValidBody table.size lowered)
      (runState (Stmt.rebuildBodyM pure
        (fun stmt => watch table stmt.exprs (Loops.lowerStmt table indexType stmt)) body) temps)
      ((Loops.lowerBody table indexType body).run temps) := by
  refine valid_rebuildBodyM coupling_faultless.runState (fun node hnode before hbefore => ?_)
    (fun stmt hstmt hbodies before hbefore => ?_) hbody temps htemps
  · rw [runState_pure]
    exact faultless_pure ⟨hbefore, hnode⟩
  · rw [watch_of_lt hstmt.symbols, runState_lift]
    exact faultless_lift (Loops.keeps_lowerStmt hindex hstmt hbodies before hbefore)

theorem faultless_counted {indexType : Ty} (hindex : indexType.Ranked)
    (hfunc : func.Valid table.size) :
    Faultless Resolution.Ranked (FunctionDef.Valid table.size) (counted table indexType func)
      (func.counted table indexType) := by
  refine faultless_bind (faultless_lowerBody hindex hfunc.body hfunc.temps) ?_
  rintro ⟨body, temps⟩ ⟨htemps, hbody⟩
  exact faultless_bind faultless_report fun _ _ => faultless_pure ⟨hbody, htemps⟩

theorem spared_step {α : Type} {step : Boxing.Step α} {good : α → Prop} {temps : List TempDecl}
    (hstep : Boxing.Upholds RankedTemps α step good) (htemps : RankedTemps temps) :
    Spared (fun (value, after) => RankedTemps after ∧ good value)
      (runState (ExceptT.lift step) temps).run (step.run temps) := by
  rw [runState_lift]
  exact spared_lift fun (value, after) hrun => hstep temps value after htemps hrun

/-- Preparing a valid body. -/
theorem spared_boxBody {temps : List TempDecl} (htable : table.Valid)
    (hbody : ValidBody table.size body) (htemps : RankedTemps temps) :
    Spared (fun (boxed, after) => RankedTemps after ∧ ValidBody table.size boxed)
      (runState (Stmt.rebuildBodyM (fun e => watch table [e] (Boxing.boxExpr table e))
        (fun stmt => watch table stmt.exprs (Boxing.boxStmt stmt)) body) temps).run
      ((Boxing.boxBody table body).run temps) := by
  refine valid_rebuildBodyM coupling_spared.runState (fun node hnode before hbefore => ?_)
    (fun stmt hstmt hbodies before hbefore => ?_) hbody temps htemps
  · rw [watch_node hnode]
    exact spared_step (Boxing.upholds_boxExpr htable hnode) hbefore
  · rw [watch_of_lt hstmt.symbols]
    exact spared_step (Boxing.upholds_boxStmt hstmt hbodies) hbefore

/-- What the last pass leaves. -/
theorem faultless_boxed {signature : FunctionType} (htable : table.Valid)
    (hsignature : signature.Ranked) (hfunc : func.Valid table.size) :
    Faultless Resolution.Ranked
      (fun boxed => boxed.Valid table.size ∧
        ∀ value ∈ boxed.failureExpr, AllValid table.size value.nodes)
      (boxed table signature func) (func.boxed table signature) := by
  refine faultless_bind (faultless_ofExcept ?_) fun boxed hboxed =>
    faultless_bind faultless_report fun _ _ => faultless_pure hboxed
  refine coupling_spared.bind (spared_boxBody htable hfunc.body hfunc.temps) ?_
  rintro ⟨body, temps⟩ ⟨htemps, hbody⟩
  exact .done ⟨⟨hbody, htemps⟩, fun value hvalue =>
    Boxing.valid_failureValue hsignature.ret hvalue⟩

/-- No fault stops the compilation of a function that no pass has treated, and what it comes to is
valid. -/
theorem faultless_compile {setting : Inference.Setting} {signature : Signature}
    (hsetting : setting.Ranked) (hfunc : func.Untreated) (hsignature : signature.Ranked) :
    Faultless Resolution.Ranked Compiled.Valid (compile setting func signature)
      (func.compile setting signature) := by
  refine faultless_bind faultless_report fun _ _ => ?_
  refine faultless_bind
    (Inference.faultless_inferFunction hsetting hfunc.uncounted hsignature)
      fun inferred hvalid => ?_
  have hinferred : inferred.func.Valid inferred.symbols.size := by
    refine ⟨hvalid.body, ?_⟩
    rw [hvalid.temps]
    exact hfunc.temps
  have hfailure : inferred.func.errorReturn = none := hvalid.errorReturn.trans hfunc.failure
  refine faultless_bind (faultless_typed hvalid.symbols hinferred hfailure) fun typed htyped => ?_
  refine faultless_bind (faultless_counted hsetting.index htyped) fun counted hcounted => ?_
  refine faultless_bind (faultless_boxed hvalid.symbols hvalid.signature hcounted) ?_
  rintro boxed ⟨hboxed, hfailure⟩
  refine faultless_bind faultless_report fun _ _ => ?_
  exact faultless_pure ⟨hvalid.signature, hvalid.symbols, hboxed, hfailure⟩

end Guarded

theorem ranked_globalsOnly : globalsOnly.Ranked := by
  refine ⟨?_, ?_, ?_, nofun, nofun⟩ <;> exact Ty.ranked_of_layouts rfl

/-- `for x in m[0]: print x; return m[0, 0]`: a row is stored in a temporary and iterated over, and
an element keeps no dimension. -/
def sampling : FunctionDef :=
  open Builder in
  function "sampling" ["m"]
    [forIn (store "x") (index (load "m") (int 0)) [print [load "x"]],
      ret (some (index (load "m") (tuple [int 0, int 0])))]

theorem untreated_sampling : sampling.Untreated :=
  ⟨List.forall_mem_cons.mpr ⟨rfl, List.forall_mem_cons.mpr ⟨trivial,
    List.forall_mem_singleton.mpr trivial⟩⟩, rfl, List.forall_mem_nil _⟩

theorem faultless_compile_sampling : ∃ compiled,
    let signature : Signature := { args := [.strided .float64 2] }
    globalsOnly.Ranked ∧ sampling.Untreated ∧ signature.Ranked ∧
    Pass.SucceedsWith Resolution.Ranked (sampling.compile globalsOnly signature) compiled ∧
    compiled.signature.ret = .float64 ∧
    (compiled.func.temps.map TempDecl.ty = [.strided .float64 1, .int64]) ∧
    compiled.Valid ∧
    Pass.SucceedsWith Resolution.Ranked (Guarded.compile globalsOnly sampling signature).run
      (.ok compiled) := by
  have hsignature : Signature.Ranked { args := [.strided .float64 2] } := ⟨by decide, nofun⟩
  obtain ⟨compiled, hcompile, htest⟩ : ∃ compiled,
      Pass.SucceedsWith Resolution.Ranked
        (sampling.compile globalsOnly { args := [.strided .float64 2] }) compiled ∧
      decide (compiled.signature.ret = .float64 ∧
        compiled.func.temps.map TempDecl.ty = [.strided .float64 1, .int64]) = true :=
    Pass.exists_succeedsWith (fun _ _ => .host) (fun _ _ => trivial) (by decide +kernel)
  obtain ⟨hret, htemps⟩ := of_decide_eq_true htest
  obtain ⟨hvalid, hguarded⟩ :=
    (Guarded.faultless_compile ranked_globalsOnly untreated_sampling hsignature).of_succeedsWith
      hcompile
  exact ⟨compiled, ranked_globalsOnly, untreated_sampling, hsignature, hcompile, hret, htemps,
    hvalid, hguarded⟩

-- The elements of an array that is not ranked would have a dimension less than none.
open Builder in
example :
    let scanning := function "scanning" ["m"] [forIn (store "x") (load "m") []]
    let outcome := ((Guarded.compile globalsOnly scanning
      { args := [.strided .float64 0] }).run.run.answer fun _ _ => .host).2
    (match outcome with
      | .ok (.error fault) => some fault
      | _ => none) = some (Fault.underflow 0 1) := by
  decide +kernel

end KernelFront
