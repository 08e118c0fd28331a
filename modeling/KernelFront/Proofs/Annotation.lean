import KernelFront.Proofs.Answers
import KernelFront.Proofs.Boxing
import KernelFront.Proofs.Inference.Output
import KernelFront.Proofs.Rebuilding

/-! # Annotated trees

Once types are fixed, the type on every expression is the one that its binding has. The later passes
replace expressions and add new ones; each of them leaves trees whose expressions are annotated in
this way, without waiting conversions, and keeps the types of what is stored and returned. The last
pass makes one exception: a tuple of boxed values becomes a call, whose result is a boxed value.
-/

namespace KernelFront

open Inference (AllInferred Done)

namespace Expr

/-- The type that is fixed on an expression is the one that its binding has. -/
def IsAnnotated (table : SymbolTable) (e : Expr) : Prop :=
  ∃ ty var, e.ty = some ty ∧ e.boundVar? table = some var ∧ var.ty = some ty

/-- Whether an expression is a conversion that waits for the type of a binding. -/
def isDeferred : Expr → Bool
  | .deferredCoercion _ _ _ => true
  | _ => false

/-- An expression after its type was fixed, its parts apart. -/
structure IsFixed (table : SymbolTable) (p : Binary64 → Prop) (e : Expr) : Prop where
  annotated : e.IsAnnotated table
  resolved : e.IsResolved
  settled : e.isDeferred = false
  tuple : e.isReadTuple → ∃ size value, e.ty = some (.tuple size value)
  noteDoubles : DoublesIn p e.note.scalars
  formDoubles : DoublesIn p e.formScalars

section Forms

variable (e : Expr) (note : Note)

@[simp] theorem children_withNote : (e.withNote note).children = e.children := by
  cases e <;> rfl

@[simp] theorem access_withNote : (e.withNote note).access = e.access := by
  cases e <;> rfl

@[simp] theorem isDeferred_withNote : (e.withNote note).isDeferred = e.isDeferred := by
  cases e <;> rfl

@[simp] theorem isReadTuple_withNote : (e.withNote note).isReadTuple = e.isReadTuple := by
  cases e <;> rfl

@[simp] theorem formScalars_withNote : (e.withNote note).formScalars = e.formScalars := by
  cases e <;> rfl

@[simp] theorem isResolved_withNote : (e.withNote note).IsResolved ↔ e.IsResolved := by
  cases e <;> rfl

variable (parts : List Expr)

@[simp] theorem access_withChildren : (e.withChildren parts).access = e.access := by
  unfold withChildren
  split <;> rfl

@[simp] theorem isDeferred_withChildren : (e.withChildren parts).isDeferred = e.isDeferred := by
  unfold withChildren
  split <;> rfl

@[simp] theorem isReadTuple_withChildren : (e.withChildren parts).isReadTuple = e.isReadTuple := by
  unfold withChildren
  split <;> rfl

@[simp] theorem formScalars_withChildren : (e.withChildren parts).formScalars = e.formScalars := by
  unfold withChildren
  split <;> rfl

end Forms

/-- As many operands leave no more choices open. -/
theorem IsResolved.withChildren {e : Expr} {parts : List Expr} (hresolved : e.IsResolved)
    (hlength : parts.length = e.children.length) : (e.withChildren parts).IsResolved := by
  cases e with
  | call => exact hresolved.elim
  | boolOp note op values => exact hlength.trans hresolved
  | compare note left ops comparators =>
      cases parts with
      | nil => cases hlength
      | cons part parts => exact ⟨hresolved.1, (Nat.succ.inj hlength).trans hresolved.2⟩
  | _ =>
      unfold Expr.withChildren
      split <;> trivial

end Expr

/-- All these expressions were fixed. -/
def AllFixed (table : SymbolTable) (p : Binary64 → Prop) (nodes : List Expr) : Prop :=
  ∀ node ∈ nodes, node.IsFixed table p

variable {table : SymbolTable} {p : Binary64 → Prop}

section AllFixed

@[simp] theorem allFixed_nil : AllFixed table p [] := List.forall_mem_nil _

@[simp] theorem allFixed_cons {node : Expr} {nodes : List Expr} :
    AllFixed table p (node :: nodes) ↔ node.IsFixed table p ∧ AllFixed table p nodes :=
  List.forall_mem_cons

@[simp] theorem allFixed_append {first second : List Expr} :
    AllFixed table p (first ++ second) ↔ AllFixed table p first ∧ AllFixed table p second :=
  List.forall_mem_append

theorem allFixed_nodesAll {es : List Expr} :
    AllFixed table p (Expr.nodesAll es) ↔ ∀ e ∈ es, AllFixed table p e.nodes := by
  induction es with
  | nil => simp [Expr.nodesAll]
  | cons e es ih => simp only [Expr.nodesAll, allFixed_append, ih, List.forall_mem_cons]

theorem AllFixed.self {e : Expr} (he : AllFixed table p e.nodes) : e.IsFixed table p :=
  he e e.mem_nodes_self

/-- An expression above fixed parts. -/
theorem allFixed_node {e : Expr} (hself : e.IsFixed table p)
    (hparts : ∀ part ∈ e.children, AllFixed table p part.nodes) : AllFixed table p e.nodes := by
  rw [Expr.nodes_eq]
  exact allFixed_cons.mpr ⟨hself, allFixed_nodesAll.mpr hparts⟩

end AllFixed

section Fixed

variable {e : Expr} {span : Span} {ty : Ty}

theorem Expr.IsAnnotated.typeIn? (he : e.IsAnnotated table) : e.typeIn? table = e.ty := by
  obtain ⟨ty, var, hty, hvar, hvarTy⟩ := he
  rw [Expr.typeIn?, hvar, hty]
  exact hvarTy

theorem Expr.IsAnnotated.isSome (he : e.IsAnnotated table) : ∃ ty, e.ty = some ty := by
  obtain ⟨ty, _, hty, _⟩ := he
  exact ⟨ty, hty⟩

theorem Expr.IsFixed.doublesIn_ty (he : e.IsFixed table p) (hty : e.ty = some ty) :
    DoublesIn p ty.scalars := by
  have hnote := he.noteDoubles
  rw [Expr.ty] at hty
  simp only [Note.scalars, hty, Option.toList_some, List.flatMap_singleton, doublesIn_append]
    at hnote
  exact hnote.2

/-- A fixed expression above other parts. -/
theorem Expr.IsFixed.withChildren {parts : List Expr} (he : e.IsFixed table p)
    (hlength : parts.length = e.children.length) : (e.withChildren parts).IsFixed table p := by
  have hnote := Expr.note_withChildren e parts
  refine ⟨?_, he.resolved.withChildren hlength, ?_, fun hread => ?_, ?_, ?_⟩
  · simpa only [Expr.IsAnnotated, Expr.ty, Expr.boundVar?, Expr.binding, hnote] using he.annotated
  · simpa using he.settled
  · simpa only [Expr.ty, hnote] using he.tuple (by simpa using hread)
  · simpa only [hnote] using he.noteDoubles
  · simpa using he.formDoubles

/-- A new expression with a note of its own that is no tuple to read. -/
theorem fixed_annotated (hnote : e.note = .annotated span ty) (hresolved : e.IsResolved)
    (hsettled : e.isDeferred = false) (htuple : e.isReadTuple = false)
    (hty : DoublesIn p ty.scalars) (hform : DoublesIn p e.formScalars) : e.IsFixed table p := by
  refine ⟨⟨ty, .typed ty, ?_, ?_, rfl⟩, hresolved, hsettled, fun hread => ?_,
    hnote ▸ doublesIn_annotated.mpr hty, hform⟩
  · rw [Expr.ty, hnote]
    rfl
  · rw [Expr.boundVar?, Expr.binding, hnote]
    rfl
  · rw [htuple] at hread
    cases hread

theorem fixed_const {value : Constant} (hty : DoublesIn p ty.scalars)
    (hvalue : DoublesIn p value.scalars) :
    AllFixed table p (Expr.const (.annotated span ty) value).nodes := by
  simp only [Expr.nodes, allFixed_cons, allFixed_nil, and_true]
  exact fixed_annotated rfl trivial rfl rfl hty hvalue

theorem allFixed_convert (he : AllFixed table p e.nodes) (hty : DoublesIn p ty.scalars) :
    AllFixed table p (e.convert table ty).nodes := by
  unfold Expr.convert
  split
  · exact he
  · simp only [Expr.nodes, allFixed_cons]
    exact ⟨fixed_annotated rfl trivial rfl rfl hty hty, he⟩

/-- A converted expression has the type that it is converted to. -/
theorem ty_convert (he : e.IsAnnotated table) : (e.convert table ty).ty = some ty := by
  unfold Expr.convert
  split
  · rename_i hty
    rw [← he.typeIn?, hty]
  · rfl

end Fixed

/-! ## Fixing types -/

section Fixing

/-- What fixing makes of an expression. -/
structure Fixes (table : SymbolTable) (p : Binary64 → Prop) (e fixed : Expr) : Prop where
  nodes : AllFixed table p fixed.nodes
  stored : e.access = .store → fixed.access = .store

/-- Every outcome of a computation that may refuse is good. -/
abbrev Ensures (α : Type) (outcome : Except TypeError α) (good : α → Prop) : Prop :=
  ∀ value, outcome = .ok value → good value

theorem judgement_ensures : Judgement Ensures := by
  refine ⟨fun hgood value hvalue => ?_, fun hfirst hnext value hvalue => ?_⟩
  · obtain rfl := Inference.pure_eq_ok.mp hvalue
    exact hgood
  · obtain ⟨middle, hmiddle, hvalue⟩ := Inference.bind_eq_ok.mp hvalue
    exact hnext middle (hfirst middle hmiddle) value hvalue

theorem exists_boundVar? {e : Expr} {ty : Ty} (hbound : e.IsBound)
    (hty : e.typeIn? table = some ty) :
    ∃ var, e.boundVar? table = some var ∧ var.ty = some ty := by
  unfold Expr.typeIn? at hty
  split at hty
  · exact ⟨_, ‹_›, hty⟩
  · rename_i hnone
    unfold Expr.boundVar? at hnone
    unfold Expr.IsBound at hbound
    split at hbound
    · exact absurd (hbound.symm.trans hty) (Option.some_ne_none _).symm
    · rename_i hbinding
      rw [hbinding] at hnone
      cases hnone
    · exact hbound.elim

theorem Expr.IsInferred.typeIn?_of_tuple {e : Expr} (he : e.IsInferred p) (hread : e.isReadTuple) :
    ∃ size value, e.typeIn? table = some (.tuple size value) := by
  obtain ⟨size, value, hty⟩ := he.tuple hread
  refine ⟨size, value, ?_⟩
  unfold Expr.ownTy? at hty
  split at hty
  · rename_i hbinding
    unfold Expr.typeIn? Expr.boundVar?
    rw [hbinding]
    exact hty
  · cases hty

/-- The type of its binding is fixed on an expression, whatever its parts became. -/
theorem fixed_withTy {e : Expr} {parts : List Expr} {ty : Ty} (htable : table.HasDoubles p)
    (he : e.IsInferred p) (hsettled : e.isDeferred = false)
    (hlength : parts.length = e.children.length) (hty : e.typeIn? table = some ty) :
    ((e.withChildren parts).withTy ty).IsFixed table p := by
  obtain ⟨var, hvar, hvarTy⟩ := exists_boundVar? he.bound hty
  have htyDoubles := Inference.doublesIn_typeIn? htable he hty
  refine ⟨⟨ty, var, ?_, ?_, hvarTy⟩, ?_, ?_, fun hread => ?_, ?_, ?_⟩
  · simp [Expr.withTy, Expr.ty]
  · simpa [Expr.boundVar?, Expr.binding, Expr.withTy] using hvar
  · simpa [Expr.withTy] using he.resolved.withChildren hlength
  · simpa [Expr.withTy] using hsettled
  · have hread : e.isReadTuple := by simpa [Expr.withTy] using hread
    obtain ⟨size, value, htuple⟩ : ∃ size value, e.typeIn? table = some (.tuple size value) :=
      he.typeIn?_of_tuple hread
    refine ⟨size, value, ?_⟩
    rw [← htuple, hty]
    simp [Expr.withTy, Expr.ty]
  · have hnote := he.noteDoubles
    simp only [Note.scalars, doublesIn_append] at hnote
    simp only [Expr.withTy, Expr.note_withNote, Expr.note_withChildren, Note.scalars,
      Option.toList_some, List.flatMap_singleton, doublesIn_append]
    exact ⟨hnote.1, htyDoubles⟩
  · simpa [Expr.withTy] using he.formDoubles

/-- Fixing the type of a node whose parts are fixed. -/
theorem fixes_fixType {e fixed : Expr} {parts : List Expr} (htable : table.HasDoubles p)
    (he : e.IsInferred p) (hparts : List.Forall₂ (Fixes table p) e.children parts)
    (hfix : (e.withChildren parts).fixType table = .ok fixed) : Fixes table p e fixed := by
  simp only [Expr.fixType, Inference.bind_eq_ok] at hfix
  obtain ⟨resolved, hresolved, hfix⟩ := hfix
  cases hdeferred : e.isDeferred with
  | true =>
      -- The conversion that waited becomes one to the type of its binding, if one is needed.
      cases e with
      | deferredCoercion note node slot =>
          obtain ⟨node', _, hnode, hnil, rfl⟩ := List.forall₂_cons_left_iff.mp hparts
          obtain rfl := List.forall₂_nil_left_iff.mp hnil
          simp only [Expr.withChildren, Expr.resolveDeferred] at hresolved
          split at hresolved
          · rename_i target htarget
            obtain rfl := Except.ok.inj hresolved
            obtain ⟨var, hvar, hvarTy⟩ := Option.bind_eq_some_iff.mp htarget
            have hdoubles := Variable.doublesIn_ty (htable.get? hvar) hvarTy
            have hall := allFixed_convert hnode.nodes hdoubles
            have hself := hall.self.annotated
            split at hfix
            · rename_i ty hty
              obtain rfl := Inference.pure_eq_ok.mp hfix
              rw [hself.typeIn?] at hty
              rw [Expr.withTy_of_ty hty]
              exact ⟨hall, Access.noConfusion⟩
            · cases hfix
          · cases hresolved
      | _ => cases hdeferred
  | false =>
      have hplain : (e.withChildren parts).resolveDeferred table = .ok (e.withChildren parts) := by
        have hsame := Expr.isDeferred_withChildren e parts
        rw [hdeferred] at hsame
        cases hrebuilt : e.withChildren parts with
        | deferredCoercion =>
            rw [hrebuilt] at hsame
            cases hsame
        | _ => rfl
      obtain rfl := Except.ok.inj (hplain.symm.trans hresolved)
      split at hfix
      · rename_i ty hty
        obtain rfl := Inference.pure_eq_ok.mp hfix
        have hsame : e.typeIn? table = some ty := by
          simpa [Expr.typeIn?, Expr.boundVar?, Expr.binding, Expr.ty] using hty
        have hlength := hparts.length_eq.symm
        refine ⟨allFixed_node (fixed_withTy htable he hdeferred hlength hsame) ?_, ?_⟩
        · rw [Expr.withTy, Expr.children_withNote, Expr.children_withChildren hlength]
          exact forall_of_forall₂ (fun _ _ _ hpart => hpart.nodes) hparts
        · simp [Expr.withTy]
      · cases hfix

/-- Fixing the types of an expression that inference is done with. -/
theorem fixes_fixTypes {e : Expr} (htable : table.HasDoubles p) (he : AllInferred p e.nodes) :
    Ensures _ (e.rebuildM (Expr.fixType table)) (Fixes table p e) :=
  judgement_ensures.rebuildM fun node hnode _ hparts _ =>
    fixes_fixType htable (he node hnode) hparts

end Fixing

/-! ## Statements -/

namespace Stmt

/-- What is stored has the type of the place it is stored to, and what is returned the type of the
result. -/
def KeepsTypes (ret : Ty) : Stmt → Prop
  | .assign _ [target] value => value.ty = target.ty
  | .ret _ (some value) => value.ty = some ret
  | _ => True

instance (ret : Ty) : DecidablePred (KeepsTypes ret) := fun
  | .assign _ [target] value => inferInstanceAs (Decidable (value.ty = target.ty))
  | .ret _ (some value) => inferInstanceAs (Decidable (value.ty = some ret))
  | .assign _ [] _ | .assign _ (_ :: _ :: _) _ | .ret _ none | .augAssign _ _ _ _
  | .forIn _ _ _ _ _ _ | .whileLoop _ _ _ _ | .branch _ _ _ _ | .expr _ _ | .print _ _ _ _
  | .global _ _ | .pass _ | .break _ | .continue _ => inferInstanceAs (Decidable True)

/-- A statement with fixed types, its bodies apart. -/
structure IsFixed (table : SymbolTable) (p : Binary64 → Prop) (ret : Ty) (stmt : Stmt) : Prop where
  nodes : AllFixed table p stmt.nodes
  resolved : stmt.IsResolved
  types : stmt.KeepsTypes ret

/-- What is marked as written stays so in a rebuilt statement. -/
theorem Reshaped.isResolved {Rel : Expr → Expr → Prop} {stmt rebuilt : Stmt}
    (hstored : ∀ e e', Rel e e' → e.access = .store → e'.access = .store)
    (hreshaped : stmt.Reshaped Rel rebuilt) (hresolved : stmt.IsResolved) :
    rebuilt.IsResolved := by
  cases hreshaped with
  | assign htargets hvalue =>
      exact forall_of_forall₂ (fun e he _ hrel => hstored _ _ hrel (hresolved e he)) htargets
  | augAssign => exact hresolved.elim
  | forIn htarget hiter hindex horelse =>
      exact ⟨hstored _ _ htarget hresolved.1, horelse hresolved.2⟩
  | whileLoop htest horelse => exact horelse hresolved
  | global => exact hresolved.elim
  | _ => trivial

/-- A statement whose expressions are as they were. -/
theorem Reshaped.isFixed {ret : Ty} {stmt rebuilt : Stmt} (hreshaped : stmt.Reshaped Eq rebuilt)
    (hstmt : stmt.IsFixed table p ret) : rebuilt.IsFixed table p ret := by
  have hstored (e e' : Expr) (hsame : e = e') (hstore : e.access = .store) :
      e'.access = .store := hsame ▸ hstore
  have hnodes (e : Expr) (he : e ∈ stmt.exprs) (e' : Expr) (hsame : e = e') :
      AllFixed table p e'.nodes := hsame ▸ allFixed_nodesAll.mp hstmt.nodes e he
  refine ⟨?_, hreshaped.isResolved hstored hstmt.resolved, ?_⟩
  · exact allFixed_nodesAll.mpr (hreshaped.forall_exprs hnodes)
  · have htypes := hstmt.types
    cases hreshaped with
    | assign htargets hvalue =>
        rw [List.forall₂_eq_eq_eq] at htargets
        subst htargets hvalue
        exact htypes
    | @ret span value value' hvalue =>
        rw [List.forall₂_eq_eq_eq] at hvalue
        cases value <;> cases value' <;> cases hvalue <;> exact htypes
    | _ => trivial

end Stmt

/-- Fixing the types of a body that inference is done with. -/
theorem fixed_fixBody {body fixed : List Stmt} (htable : table.HasDoubles p) (hbody : Done p body)
    (hfix : Stmt.fixTypes table body = .ok fixed) :
    ∀ stmt ∈ Stmt.nestedBody fixed, AllFixed table p stmt.nodes ∧ stmt.IsResolved := by
  have hexprs (stmt : Stmt) (hstmt : stmt ∈ Stmt.nestedBody body) (e : Expr)
      (he : e ∈ stmt.exprs) : Ensures _ (e.rebuildM (Expr.fixType table)) (Fixes table p e) :=
    fixes_fixTypes htable fun node hnode =>
      (hbody stmt hstmt).nodes node (Expr.mem_nodesAll.mpr ⟨e, he, hnode⟩)
  refine (judgement_ensures.rebuildBody hexprs
    (fun stmt hstmt rebuilt hreshaped hbodies => ?_) fixed hfix).good
  refine judgement_ensures.pure (Stmt.forall_nested ⟨?_, ?_⟩ hbodies)
  · exact allFixed_nodesAll.mpr (hreshaped.forall_exprs fun _ _ _ hfixes => hfixes.nodes)
  · exact hreshaped.isResolved (fun _ _ hfixes => hfixes.stored) (hbody stmt hstmt).resolved

/-- Inference is done with a function of the source, whatever its doubles are. -/
theorem FunctionDef.done_of_isSource {setting : Inference.Setting} {func : FunctionDef}
    {signature : Signature} {inferred : Inferred} (hsource : func.IsSource)
    (hinfer : Pass.Succeeds (Inference.inferFunction setting func signature) inferred) :
    Inference.Inferred.IsDone (fun _ => True) func inferred := by
  have hsetting : setting.HasDoubles fun _ => True :=
    ⟨doublesIn_true, doublesIn_true, doublesIn_true, fun _ => doublesIn_true,
      fun _ => doublesIn_true⟩
  refine (Inference.done_inferFunction hsetting ⟨hsource, fun _ _ => doublesIn_true⟩
    ⟨fun _ _ => doublesIn_true, fun _ _ => doublesIn_true⟩).good
    (hinfer.succeedsWith fun answer => ?_)
  cases answer with
  | native => exact doublesIn_true
  | host => trivial

/-- Fixing the types of a function of the source. -/
theorem FunctionDef.fixed_typed {setting : Inference.Setting} {func typed : FunctionDef}
    {signature : Signature} {inferred : Inferred} (hsource : func.IsSource)
    (hinfer : Pass.Succeeds (Inference.inferFunction setting func signature) inferred)
    (hdone : Inference.Inferred.IsDone p func inferred)
    (htyped : Pass.Succeeds (inferred.func.typed inferred.symbols) typed) :
    (∀ stmt ∈ typed.statements, stmt.IsFixed inferred.symbols p inferred.signature.ret) ∧
      typed.temps = func.temps := by
  obtain ⟨hsound, htemps, _⟩ :=
    FunctionDef.sound_typed (fun stmt hstmt => (hsource.statements stmt hstmt).uncounted) hinfer
      htyped
  obtain ⟨body, _, hfix, -, rfl⟩ := exists_typed htyped
  refine ⟨fun stmt hstmt => ?_, htemps⟩
  obtain ⟨hnodes, hresolved⟩ := fixed_fixBody hdone.symbols hdone.statements hfix stmt hstmt
  obtain ⟨_, hagrees, hreturns⟩ := hsound stmt hstmt
  refine ⟨hnodes, hresolved, ?_⟩
  cases stmt with
  | assign =>
      obtain ⟨target, ty, rfl, htarget, hvalue⟩ := hagrees
      exact hvalue.trans htarget.symm
  | ret span value =>
      cases value with
      | none => trivial
      | some value => exact hreturns
  | _ => trivial

/-! ## Counting loops -/

/-- The doubles in the types of temporaries have the property. -/
def TempDoubles (p : Binary64 → Prop) (temps : List TempDecl) : Prop :=
  ∀ decl ∈ temps, DoublesIn p decl.scalars

theorem tempDoubles_append {temps : List TempDecl} {ty : Ty} {kind : TempKind} {id : TempId}
    (htemps : TempDoubles p temps) (hty : DoublesIn p ty.scalars) :
    TempDoubles p (temps ++ [⟨id, ty, kind⟩]) := by
  refine List.forall_mem_append.mpr ⟨htemps, List.forall_mem_singleton.mpr ?_⟩
  simpa [TempDecl.scalars, TempId.scalars] using hty

namespace Loops

variable {indexType ret : Ty} {span : Span} {target iter array : Expr}
  {body orelse lowered : List Stmt} {before after : List TempDecl}

/-- Whatever the pass comes to is good, and temporaries keep the property. -/
abbrev Lowers (p : Binary64 → Prop) (α : Type) (pass : Lowering α) (good : α → Prop) : Prop :=
  ∀ before value after, TempDoubles p before → Pass.Reaches pass before value after →
    TempDoubles p after ∧ good value

theorem judgement_lowers : Judgement (Lowers p) := by
  refine ⟨fun hgood before value after hbefore hreach => ?_,
    fun hfirst hnext before value after hbefore hreach => ?_⟩
  · obtain ⟨rfl, rfl⟩ := Pass.reaches_pure.mp hreach
    exact ⟨hbefore, hgood⟩
  · obtain ⟨middle, temps, hmiddle, hreach⟩ := Pass.reaches_bind.mp hreach
    obtain ⟨htemps, hvalue⟩ := hfirst before middle temps hbefore hmiddle
    exact hnext middle hvalue temps value after htemps hreach

theorem tempDoubles_allocate {ty : Ty} {kind : TempKind} {id : TempId}
    (hty : DoublesIn p ty.scalars) (hbefore : TempDoubles p before)
    (hreach : Pass.Reaches (allocate ty kind) before id after) : TempDoubles p after := by
  obtain ⟨rfl, rfl⟩ := reaches_allocate.mp hreach
  exact tempDoubles_append hbefore hty

theorem tempDoubles_lowerLoop (hindex : DoublesIn p indexType.scalars)
    (hiter : iter.IsFixed table p) (hbefore : TempDoubles p before)
    (hlower : Pass.Reaches (lowerLoop table indexType span target iter body orelse) before lowered
      after) : TempDoubles p after := by
  unfold lowerLoop at hlower
  split at hlower
  · exact absurd hlower Pass.not_reaches_throw
  · obtain ⟨iterTy, hiterTy⟩ := hiter.annotated.isSome
    have hdoubles := hiter.doublesIn_ty hiterTy
    simp only [hiterTy, Option.getD_some] at hlower
    split at hlower
    · simp only [pure_bind, Pass.reaches_bind, Pass.reaches_lift, Pass.reaches_pure] at hlower
      obtain ⟨_, _, ⟨_, rfl⟩, _, rfl⟩ := hlower
      exact hbefore
    · simp only [pure_bind, Pass.reaches_bind, Pass.reaches_lift, Pass.reaches_pure] at hlower
      obtain ⟨_, middle, honce, _, _, hallocate, _, _, ⟨_, rfl⟩, _, rfl⟩ := hlower
      refine tempDoubles_allocate hindex ?_ hallocate
      unfold evaluateOnce at honce
      split at honce
      · obtain ⟨_, rfl⟩ := Pass.reaches_pure.mp honce
        exact hbefore
      · simp only [Pass.reaches_bind, Pass.reaches_pure] at honce
        obtain ⟨_, _, hstored, _, rfl⟩ := honce
        exact tempDoubles_allocate hdoubles hbefore hstored
    · simp only [Pass.reaches_bind, Pass.not_reaches_throw, false_and, exists_false] at hlower

/-! ### New expressions -/

theorem fixed_temp {id : TempId} {access : Access} {ty : Ty} (hty : DoublesIn p ty.scalars) :
    AllFixed table p (temp id access ty span).nodes := by
  simp only [temp, Expr.nodes, allFixed_cons, allFixed_nil, and_true]
  refine fixed_annotated rfl trivial rfl rfl hty ?_
  simp [Expr.formScalars, TempId.scalars]

theorem fixed_int {value : Int} {ty : Ty} (hty : DoublesIn p ty.scalars) :
    AllFixed table p (int value ty span).nodes :=
  fixed_const hty (by simp [Constant.scalars])

theorem fixed_arrayLength (harray : AllFixed table p array.nodes) :
    AllFixed table p (arrayLength array span).nodes := by
  have hintp : DoublesIn p Ty.intp.scalars := by simp [Ty.intp, Ty.int64, Ty.scalars]
  simp only [arrayLength, Expr.nodes, allFixed_cons, allFixed_append]
  refine ⟨fixed_annotated rfl trivial rfl rfl hintp doublesIn_nil,
    ⟨fixed_annotated rfl trivial rfl rfl ?_ doublesIn_nil, harray⟩, fixed_int hintp⟩
  simpa only [Ty.scalars, doublesIn_nat] using hintp

theorem fixed_positions (hindex : DoublesIn p indexType.scalars)
    (harray : AllFixed table p array.nodes) :
    AllFixed table p (positions table indexType array span).nodes := by
  simp only [positions, Expr.nodes, allFixed_cons, allFixed_append]
  exact ⟨fixed_annotated rfl trivial rfl rfl doublesIn_nil doublesIn_nil,
    ⟨fixed_int hindex, allFixed_convert (fixed_arrayLength harray) hindex⟩, fixed_int hindex⟩

/-- The element at the counter is converted to the type of the target. -/
theorem fixed_storeElement {elem : Ty} {id : TempId} (hindex : DoublesIn p indexType.scalars)
    (helem : DoublesIn p elem.scalars) (htarget : AllFixed table p target.nodes)
    (hstored : target.access = .store) (harray : AllFixed table p array.nodes) :
    (storeElement table target array (temp id .load indexType span) elem span).IsFixed table p
      ret := by
  obtain ⟨ty, hty⟩ := htarget.self.annotated.isSome
  have helement : AllFixed table p (Expr.subscript (.annotated span elem) array
      (temp id .load indexType span) .load).nodes := by
    simp only [Expr.nodes, allFixed_cons, allFixed_append]
    exact ⟨fixed_annotated rfl trivial rfl rfl helem doublesIn_nil, harray, fixed_temp hindex⟩
  refine ⟨?_, List.forall_mem_singleton.mpr hstored, ?_⟩
  · simp only [storeElement, Stmt.nodes, Stmt.exprs, List.singleton_append, Expr.nodesAll,
      List.append_nil, allFixed_append, hty, Option.getD_some]
    exact ⟨htarget, allFixed_convert helement (htarget.self.doublesIn_ty hty)⟩
  · simp only [storeElement, Stmt.KeepsTypes, hty, Option.getD_some]
    exact ty_convert helement.self.annotated

/-- The statements that a loop becomes. -/
theorem Counted.isFixed (hcounted : Counted table indexType span target iter body orelse before
      lowered after) (hindex : DoublesIn p indexType.scalars) (hname : target.asName.isSome)
    (hstored : target.access = .store) (htarget : AllFixed table p target.nodes)
    (hiter : AllFixed table p iter.nodes)
    (hbody : ∀ stmt ∈ Stmt.nestedBody body, stmt.IsFixed table p ret) (horelse : orelse = []) :
    ∀ stmt ∈ Stmt.nestedBody lowered, stmt.IsFixed table p ret := by
  subst horelse
  have hloop {iter index : Expr} {body : List Stmt} (hiter : AllFixed table p iter.nodes)
      (hcounter : AllFixed table p index.nodes)
      (hbody : ∀ stmt ∈ Stmt.nestedBody body, stmt.IsFixed table p ret) :
      ∀ stmt ∈ Stmt.nestedBody [.forIn span target iter body [] (some index)],
        stmt.IsFixed table p ret := by
    refine Stmt.forall_nested ⟨?_, ⟨hstored, rfl⟩, trivial⟩ ?_
    · simp only [Stmt.nodes, Stmt.exprs, Option.toList_some, Expr.nodesAll, List.append_nil,
        allFixed_append]
      exact ⟨htarget, hiter, hcounter⟩
    · exact List.forall_mem_cons.mpr
        ⟨hbody, List.forall_mem_singleton.mpr (List.forall_mem_nil _)⟩
  have hoverArray {array : Expr} {elem : Ty} {id : TempId} (helem : DoublesIn p elem.scalars)
      (harray : AllFixed table p array.nodes) :
      ∀ stmt ∈ Stmt.nestedBody [overArray table indexType span target array elem body [] id],
        stmt.IsFixed table p ret :=
    hloop (fixed_positions hindex harray) (fixed_temp hindex) (List.forall_mem_cons.mpr
      ⟨fixed_storeElement hindex helem htarget hstored harray, hbody⟩)
  cases hcounted with
  | range hiterTy =>
      refine hloop hiter ?_ hbody
      obtain ⟨name, hname⟩ := Option.isSome_iff_exists.mp hname
      obtain ⟨note, access, rfl⟩ := Expr.eq_name_of_asName hname
      simp only [Expr.withAccess, Expr.nodes, allFixed_cons, allFixed_nil, and_true] at htarget ⊢
      exact ⟨htarget.annotated, trivial, rfl, Bool.noConfusion, htarget.noteDoubles, doublesIn_nil⟩
  | named hiterTy _ =>
      have harray := hiter.self.doublesIn_ty hiterTy
      exact hoverArray (Ty.doublesIn_array.mp harray) hiter
  | stored hiterTy _ =>
      have harray := hiter.self.doublesIn_ty hiterTy
      rw [Stmt.nestedBody]
      refine List.forall_mem_append.mpr ⟨List.forall_mem_singleton.mpr ⟨?_, ?_, hiterTy⟩,
        hoverArray (Ty.doublesIn_array.mp harray) (fixed_temp harray)⟩
      · simp only [Stmt.nodes, Stmt.exprs, List.singleton_append, Expr.nodesAll, List.append_nil,
          allFixed_append]
        exact ⟨fixed_temp harray, hiter⟩
      · exact List.forall_mem_singleton.mpr rfl

/-- Counting the loops of a body with fixed types. -/
theorem fixed_lowerBody (hindex : DoublesIn p indexType.scalars)
    (hbody : ∀ stmt ∈ Stmt.nestedBody body, stmt.IsFixed table p ret) :
    Lowers p _ (lowerBody table indexType body)
      (fun lowered => ∀ stmt ∈ Stmt.nestedBody lowered, stmt.IsFixed table p ret) := by
  have hwalk : Lowers p _ (lowerBody table indexType body)
      (Stmt.Becomes (Stmt.IsFixed table p ret) body) := by
    have hexprs (stmt : Stmt) (_ : stmt ∈ Stmt.nestedBody body) (e : Expr)
        (_ : e ∈ stmt.exprs) : Lowers p _ (e.rebuildM pure) (Eq e) := by
      rw [Expr.rebuildM_pure]
      exact judgement_lowers.pure rfl
    refine judgement_lowers.rebuildBody hexprs fun stmt hstmt rebuilt hreshaped hbodies => ?_
    have hrebuilt := hreshaped.isFixed (hbody stmt hstmt)
    cases rebuilt with
    | forIn span target iter body orelse index =>
        intro before lowered after hbefore hlower
        obtain ⟨hname, hcounted⟩ := counted_lowerLoop hlower
        obtain ⟨hnodes, ⟨hstored, horelse⟩, _⟩ := hrebuilt
        obtain ⟨htarget, hrest⟩ := allFixed_append.mp hnodes
        have hiter := (allFixed_append.mp hrest).1
        exact ⟨tempDoubles_lowerLoop hindex hiter.self hbefore hlower,
          hcounted.isFixed hindex hname hstored htarget hiter (hbodies _ List.mem_cons_self)
            horelse⟩
    | _ => exact judgement_lowers.pure (Stmt.forall_nested hrebuilt hbodies)
  intro before lowered after hbefore hlower
  obtain ⟨hafter, hbecomes⟩ := hwalk before lowered after hbefore hlower
  exact ⟨hafter, hbecomes.good⟩

end Loops

/-- Counting the loops of a function with fixed types. -/
theorem FunctionDef.fixed_counted {indexType ret : Ty} {func counted : FunctionDef}
    (hindex : DoublesIn p indexType.scalars)
    (hfixed : ∀ stmt ∈ func.statements, stmt.IsFixed table p ret)
    (htemps : TempDoubles p func.temps)
    (hcounted : Pass.Succeeds (func.counted table indexType) counted) :
    (∀ stmt ∈ counted.statements, stmt.IsFixed table p ret) ∧ TempDoubles p counted.temps := by
  simp only [FunctionDef.counted, Pass.succeeds_bind, Pass.succeeds_pure] at hcounted
  obtain ⟨⟨body, temps⟩, hbody, _, _, rfl⟩ := hcounted
  obtain ⟨hafter, hgood⟩ := Loops.fixed_lowerBody hindex hfixed _ _ _ htemps hbody
  exact ⟨hgood, hafter⟩

end KernelFront
