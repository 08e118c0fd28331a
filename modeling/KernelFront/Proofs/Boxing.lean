import KernelFront.Compilation
import KernelFront.Proofs.Counting
import KernelFront.Proofs.Inference.Soundness

/-! # Boxed values have owners

A new boxed value must be released exactly once, so every expression that makes one stands directly
below a temporary of its own. The last pass rebuilds a function from the leaves of its expressions
up: when it reaches an expression, the parts are owned already, and their temporaries have lower
numbers than the one that the expression itself may need.
-/

namespace KernelFront

namespace Expr

/-- Whether an expression makes a new boxed value. -/
def isFresh : Expr → Bool
  | .tuple _ _ access => access = .load
  | .dict _ _ _ | .objectCall _ _ _ _ => true
  | .nativeCall _ _ signature _ => signature.ret = .object
  | _ => false

/-- Whether an expression has a form that does not occur between the fixing of types and this pass:
a conversion that waits for its type, or a temporary that owns a boxed value. -/
def isTransient : Expr → Bool
  | .deferredCoercion _ _ _ | .objectTemp _ _ _ => true
  | _ => false

/-- The temporary that owns the value of an expression. -/
def owner? : Expr → Option TempId
  | .objectTemp _ _ id => id
  | _ => none

theorem isTransient_withChildren (e : Expr) (parts : List Expr) :
    (e.withChildren parts).isTransient = e.isTransient := by
  unfold withChildren
  split <;> rfl

/-- New boxed values among the parts of an expression are owned by the expression itself. -/
def Sealed : Expr → Prop
  | .objectTemp _ _ id => id.isSome
  | e => ∀ part ∈ e.children, part.isFresh = false

end Expr

/-- No transient forms occur among some nodes. -/
def Steady (nodes : List Expr) : Prop := ∀ node ∈ nodes, node.isTransient = false

@[simp] theorem steady_nil : Steady [] := List.forall_mem_nil _

@[simp] theorem steady_cons {node : Expr} {nodes : List Expr} :
    Steady (node :: nodes) ↔ node.isTransient = false ∧ Steady nodes :=
  List.forall_mem_cons

@[simp] theorem steady_append {first second : List Expr} :
    Steady (first ++ second) ↔ Steady first ∧ Steady second :=
  List.forall_mem_append

theorem steady_nodesAll {es : List Expr} :
    Steady (Expr.nodesAll es) ↔ ∀ e ∈ es, Steady e.nodes := by
  induction es with
  | nil => simp only [Expr.nodesAll, steady_nil, List.not_mem_nil, false_imp_iff, implies_true]
  | cons e es ih => simp only [Expr.nodesAll, steady_append, ih, List.forall_mem_cons]

/-- Every boxed value that a function makes has one owner: it is made directly below a temporary, no
two of these temporaries are the same, and they are the temporaries of the function that hold
objects. -/
structure FunctionDef.OwnsBoxed (func : FunctionDef) : Prop where
  statements : ∀ stmt ∈ func.statements, ∀ e ∈ stmt.exprs, e.isFresh = false
  nodes : ∀ node ∈ func.nodes, node.Sealed
  distinct : (func.nodes.filterMap Expr.owner?).Nodup
  recorded : (func.nodes.filterMap Expr.owner?).Perm
    ((func.temps.filter fun decl => decl.kind = .object).map TempDecl.id)
  objects : ∀ decl ∈ func.temps, decl.kind = .object → decl.ty = .object

/-! ## Temporaries -/

/-- Temporaries are numbered by their positions. -/
def Numbered (temps : List TempDecl) : Prop :=
  temps.map TempDecl.id = (List.range temps.length).map TempId.mk

theorem Numbered.next {temps : List TempDecl} (hnumbered : Numbered temps) (ty : Ty)
    (kind : TempKind) : Numbered (TempDecl.next ty kind temps).2 := by
  unfold Numbered at hnumbered ⊢
  simp only [TempDecl.next, List.map_append, hnumbered, List.length_append, List.length_singleton,
    List.range_succ, List.map_singleton]

theorem Numbered.nodup {temps : List TempDecl} (hnumbered : Numbered temps) :
    (temps.map TempDecl.id).Nodup := by
  rw [hnumbered]
  exact List.Pairwise.map _ (fun _ _ hne heq => hne (TempId.mk.inj heq)) List.nodup_range

namespace Boxing

/-- Temporaries with these numbers were added, all of them for objects. -/
structure Adds (before : List TempDecl) (ids : List TempId) (after : List TempDecl) : Prop where
  numbered : Numbered before → Numbered after
  made : ∃ made, after = before ++ made ∧
    (∀ decl ∈ made, decl.kind = .object ∧ decl.ty = .object) ∧ ids.Perm (made.map TempDecl.id)

theorem Adds.refl (temps : List TempDecl) : Adds temps [] temps :=
  ⟨id, [], (List.append_nil _).symm, List.forall_mem_nil _, .nil⟩

theorem Adds.trans {before middle after : List TempDecl} {first second : List TempId}
    (hfirst : Adds before first middle) (hsecond : Adds middle second after) :
    Adds before (first ++ second) after := by
  obtain ⟨made, rfl, hmade, hperm⟩ := hfirst.made
  obtain ⟨later, rfl, hlater, hperm'⟩ := hsecond.made
  refine ⟨hsecond.numbered ∘ hfirst.numbered, made ++ later, List.append_assoc _ _ _, ?_, ?_⟩
  · exact List.forall_mem_append.mpr ⟨hmade, hlater⟩
  · rw [List.map_append]
    exact hperm.append hperm'

theorem Adds.perm {before after : List TempDecl} {ids others : List TempId}
    (hadds : Adds before ids after) (hperm : others.Perm ids) : Adds before others after := by
  obtain ⟨made, hafter, hmade, hids⟩ := hadds.made
  exact ⟨hadds.numbered, made, hafter, hmade, hperm.trans hids⟩

theorem adds_next (temps : List TempDecl) :
    Adds temps [⟨temps.length⟩] (TempDecl.next .object .object temps).2 :=
  ⟨fun hnumbered => hnumbered.next _ _, [⟨⟨temps.length⟩, .object, .object⟩], rfl, by simp, .refl _⟩

/-- New boxed values among these nodes are owned, by the temporaries that were added. -/
structure Owned (before : List TempDecl) (nodes : List Expr) (after : List TempDecl) : Prop where
  isSealed : ∀ node ∈ nodes, node.Sealed
  adds : Adds before (nodes.filterMap Expr.owner?) after

theorem Owned.refl (temps : List TempDecl) : Owned temps [] temps :=
  ⟨List.forall_mem_nil _, .refl temps⟩

theorem Owned.append {before middle after : List TempDecl} {first second : List Expr}
    (hfirst : Owned before first middle) (hsecond : Owned middle second after) :
    Owned before (first ++ second) after := by
  refine ⟨List.forall_mem_append.mpr ⟨hfirst.isSealed, hsecond.isSealed⟩, ?_⟩
  rw [List.filterMap_append]
  exact hfirst.adds.trans hsecond.adds

/-- These expressions make no boxed values that their places would have to own, and those that are
made below them are owned. -/
structure Prepared (before : List TempDecl) (es : List Expr) (after : List TempDecl) : Prop where
  fresh : ∀ e ∈ es, e.isFresh = false
  owned : Owned before (Expr.nodesAll es) after

theorem Prepared.refl (temps : List TempDecl) : Prepared temps [] temps :=
  ⟨List.forall_mem_nil _, .refl temps⟩

theorem Prepared.append {before middle after : List TempDecl} {first second : List Expr}
    (hfirst : Prepared before first middle) (hsecond : Prepared middle second after) :
    Prepared before (first ++ second) after := by
  refine ⟨List.forall_mem_append.mpr ⟨hfirst.fresh, hsecond.fresh⟩, ?_⟩
  rw [Expr.nodesAll_append]
  exact hfirst.owned.append hsecond.owned

@[simp] theorem prepared_singleton {before after : List TempDecl} {e : Expr} :
    Prepared before [e] after ↔ e.isFresh = false ∧ Owned before e.nodes after := by
  constructor
  · rintro ⟨hfresh, howned⟩
    exact ⟨hfresh e (List.mem_singleton_self e), by simpa [Expr.nodesAll] using howned⟩
  · rintro ⟨hfresh, howned⟩
    exact ⟨List.forall_mem_singleton.mpr hfresh, by simpa [Expr.nodesAll] using howned⟩

/-! ## Expressions -/

theorem sealed_of_parts {e : Expr} (hself : e.isTransient = false)
    (hparts : ∀ part ∈ e.children, part.isFresh = false) : e.Sealed := by
  cases e with
  | objectTemp => cases hself
  | _ => exact hparts

theorem owner?_of_isTransient {e : Expr} (hself : e.isTransient = false) : e.owner? = none := by
  cases e with
  | objectTemp => cases hself
  | _ => rfl

variable {before middle after : List TempDecl} {e result : Expr} {table : SymbolTable}

/-- A steady expression above prepared parts. -/
theorem Prepared.node (hparts : Prepared before e.children after) (hself : e.isTransient = false) :
    Owned before e.nodes after := by
  rw [Expr.nodes_eq]
  refine ⟨List.forall_mem_cons.mpr ⟨sealed_of_parts hself hparts.fresh, hparts.owned.isSealed⟩, ?_⟩
  rw [List.filterMap_cons, owner?_of_isTransient hself]
  exact hparts.owned.adds

/-- An expression above prepared parts that is given an owner. -/
theorem prepared_own (hparts : Prepared before e.children middle) (hself : e.isTransient = false)
    (hown : (own e).run middle = .ok (result, after)) : Prepared before [result] after := by
  cases hown
  have hnode := hparts.node hself
  refine prepared_singleton.mpr ⟨rfl, List.forall_mem_cons.mpr ⟨rfl, hnode.isSealed⟩, ?_⟩
  exact (hnode.adds.trans (adds_next middle)).perm (List.perm_append_singleton _ _).symm

/-- Reading an array through its pointer. -/
theorem prepared_throughPointer {note : Note} {value selector : Expr} {access : Access}
    (hparts : Prepared before [value, selector] after)
    (hthrough : throughPointer note value selector access = .ok result) :
    Prepared before [result] after := by
  have hplain : Prepared before [.subscript note value selector access] after :=
    prepared_singleton.mpr ⟨rfl, hparts.node (e := .subscript note value selector access) rfl⟩
  unfold throughPointer at hthrough
  split at hthrough
  · split at hthrough
    · cases hthrough
    · cases hthrough
      exact hplain
  · cases hthrough
    -- Neither of the two new nodes owns anything.
    refine prepared_singleton.mpr ⟨rfl, ?_⟩
    refine Prepared.node (e := .subscript note (.dataPointer _ _) selector access) ?_ rfl
    obtain ⟨hfresh, howned⟩ := hparts
    obtain ⟨hvalue, hselector⟩ := List.forall_mem_cons.mp hfresh
    refine ⟨List.forall_mem_cons.mpr ⟨rfl, hselector⟩, ?_, howned.adds⟩
    exact List.forall_mem_cons.mpr ⟨List.forall_mem_singleton.mpr hvalue, howned.isSealed⟩
  · cases hthrough
    exact hplain

/-- An expression whose parts are prepared. -/
theorem prepared_boxExpr (hparts : Prepared before e.children middle)
    (hself : e.isTransient = false)
    (hbox : (boxExpr table e).run middle = .ok (result, after)) :
    Prepared before [result] after := by
  have hnode := hparts.node hself
  cases e with
  | deferredCoercion => cases hself
  | tuple note elts access =>
      cases access with
      | load =>
          simp only [boxExpr] at hbox
          split at hbox
          · refine prepared_own (e := packTuple note.span elts) ?_ rfl hbox
            have hcount : Prepared before [.const (.annotated note.span .intp) (.int elts.length)]
                before := prepared_singleton.mpr ⟨rfl, Prepared.node (.refl before) rfl⟩
            exact hcount.append hparts
          · exact prepared_own hparts hself hbox
      | store =>
          cases hbox
          exact prepared_singleton.mpr ⟨rfl, hnode⟩
  | dict => exact prepared_own hparts hself hbox
  | objectCall => exact prepared_own hparts hself hbox
  | nativeCall note symbol signature args =>
      simp only [boxExpr] at hbox
      split at hbox
      · exact prepared_own hparts hself hbox
      · rename_i hret
        cases hbox
        exact prepared_singleton.mpr ⟨by simpa [Expr.isFresh] using hret, hnode⟩
  | subscript note value selector access =>
      simp only [boxExpr, StateT.run_lift, Inference.bind_eq_ok, Inference.pure_eq_ok,
        Prod.mk.injEq] at hbox
      obtain ⟨_, hthrough, rfl, rfl⟩ := hbox
      exact prepared_throughPointer hparts hthrough
  | _ =>
      cases hbox
      exact prepared_singleton.mpr ⟨rfl, hnode⟩

/-- Several expressions are prepared one after the other, each as the hypothesis tells. -/
theorem prepared_each {es results : List Expr} {before after : List TempDecl}
    (heach : ∀ e ∈ es, ∀ {result before after},
      (e.rebuildM (boxExpr table)).run before = .ok (result, after) →
        Prepared before [result] after)
    (hbox : (Expr.rebuildAllM (boxExpr table) es).run before = .ok (results, after)) :
    results.length = es.length ∧ Prepared before results after := by
  induction es generalizing results before with
  | nil =>
      cases hbox
      exact ⟨rfl, .refl _⟩
  | cons e es ih =>
      obtain ⟨he, hes⟩ := List.forall_mem_cons.mp heach
      simp only [Expr.rebuildAllM, StateT.run_bind, StateT.run_pure, Inference.bind_eq_ok,
        Inference.pure_eq_ok, Prod.exists, Prod.mk.injEq] at hbox
      obtain ⟨result, middle, hresult, results, _, hresults, rfl, rfl⟩ := hbox
      obtain ⟨hlength, hprepared⟩ := ih hes hresults
      exact ⟨congrArg Nat.succ hlength, (he hresult).append hprepared⟩

/-- Preparing an expression gives an owner to every boxed value that is made in it. -/
theorem prepared_rebuildM (hsteady : Steady e.nodes)
    (hbox : (e.rebuildM (boxExpr table)).run before = .ok (result, after)) :
    Prepared before [result] after := by
  induction e using Expr.induct generalizing result before after with
  | hstep e ih =>
      simp only [Expr.rebuildM_eq, StateT.run_bind, Inference.bind_eq_ok, Prod.exists] at hbox
      obtain ⟨parts, middle, hparts, hbox⟩ := hbox
      rw [Expr.nodes_eq] at hsteady
      obtain ⟨hself, hbelow⟩ := steady_cons.mp hsteady
      obtain ⟨hlength, hprepared⟩ := prepared_each
        (fun part hpart {_ _ _} => ih part hpart (steady_nodesAll.mp hbelow part hpart)) hparts
      refine prepared_boxExpr ?_ ((Expr.isTransient_withChildren e parts).trans hself) hbox
      rwa [Expr.children_withChildren hlength]

theorem prepared_rebuildAllM {es results : List Expr} (hsteady : Steady (Expr.nodesAll es))
    (hbox : (Expr.rebuildAllM (boxExpr table) es).run before = .ok (results, after)) :
    Prepared before results after :=
  (prepared_each (fun e he {_ _ _} => prepared_rebuildM (steady_nodesAll.mp hsteady e he)) hbox).2

theorem prepared_rebuildPartM {part result : Option Expr}
    (hsteady : Steady (Expr.nodesAll part.toList))
    (hbox : (Expr.rebuildPartM (boxExpr table) part).run before = .ok (result, after)) :
    Prepared before result.toList after := by
  cases part with
  | none =>
      cases hbox
      exact .refl _
  | some e =>
      simp only [Expr.rebuildPartM, StateT.run_bind, StateT.run_pure, Inference.bind_eq_ok,
        Inference.pure_eq_ok, Prod.exists, Prod.mk.injEq] at hbox
      obtain ⟨e', _, he, rfl, rfl⟩ := hbox
      exact prepared_rebuildM (steady_nodesAll.mp hsteady e (List.mem_singleton_self e)) he

/-! ## Statements -/

/-- New boxed values in these statements are owned, by the temporaries that were added. -/
structure OwnedBody (before : List TempDecl) (stmts : List Stmt) (after : List TempDecl) :
    Prop where
  exprs : ∀ stmt ∈ stmts, ∀ e ∈ stmt.exprs, e.isFresh = false
  nodes : Owned before (stmts.flatMap Stmt.nodes) after

theorem OwnedBody.refl (temps : List TempDecl) : OwnedBody temps [] temps :=
  ⟨List.forall_mem_nil _, .refl temps⟩

theorem OwnedBody.append {before middle after : List TempDecl} {first second : List Stmt}
    (hfirst : OwnedBody before first middle) (hsecond : OwnedBody middle second after) :
    OwnedBody before (first ++ second) after := by
  refine ⟨List.forall_mem_append.mpr ⟨hfirst.exprs, hsecond.exprs⟩, ?_⟩
  rw [List.flatMap_append]
  exact hfirst.nodes.append hsecond.nodes

theorem Prepared.body (stmt : Stmt) (hexprs : Prepared before stmt.exprs after) :
    OwnedBody before [stmt] after := by
  refine ⟨List.forall_mem_singleton.mpr hexprs.fresh, ?_⟩
  rw [List.flatMap_singleton]
  exact hexprs.owned

theorem nestedBody_printCalls (span : Span) (values : List Expr) :
    Stmt.nestedBody (values.map (printCall span)) = values.map (printCall span) := by
  induction values with
  | nil => rfl
  | cons value values ih => exact congrArg _ ih

theorem owners_printCalls (span : Span) (values : List Expr) :
    ((values.map (printCall span)).flatMap Stmt.nodes).filterMap Expr.owner? =
      (Expr.nodesAll values).filterMap Expr.owner? := by
  induction values with
  | nil => rfl
  | cons value values ih =>
      simp only [List.map_cons, List.flatMap_cons, List.filterMap_append, Expr.nodesAll, ih]
      simp only [printCall, Stmt.nodes, Stmt.exprs, Host.Function.call, Expr.nodesAll, Expr.nodes,
        List.filterMap_cons, List.filterMap_append, List.append_nil, Expr.owner?,
        List.filterMap_nil]

theorem sealed_printCall {span : Span} {value : Expr} (hvalue : value.isFresh = false)
    (hnodes : ∀ node ∈ value.nodes, node.Sealed) :
    ∀ node ∈ (printCall span value).nodes, node.Sealed := by
  simp only [printCall, Stmt.nodes, Stmt.exprs, Host.Function.call, Expr.nodesAll, Expr.nodes,
    List.append_nil, List.forall_mem_cons, List.forall_mem_append]
  have hconst {note : Note} {value : Constant} : (Expr.const note value).Sealed :=
    List.forall_mem_nil _
  refine ⟨?_, hnodes, ⟨hconst, List.forall_mem_nil _⟩, hconst, List.forall_mem_nil _⟩
  exact List.forall_mem_cons.mpr ⟨hvalue, List.forall_mem_cons.mpr ⟨rfl, by simp [Expr.isFresh]⟩⟩

/-- Printing boxed values makes none. -/
theorem Prepared.printCalls {span : Span} {values : List Expr} {before after : List TempDecl}
    (hvalues : Prepared before values after) :
    OwnedBody before (values.map (printCall span)) after := by
  obtain ⟨hfresh, hsealed, hadds⟩ := hvalues
  refine ⟨List.forall_mem_map.mpr fun value _ => ?_, ?_, ?_⟩
  · exact List.forall_mem_singleton.mpr rfl
  · intro node hnode
    obtain ⟨_, hstmt, hnode⟩ := List.mem_flatMap.mp hnode
    obtain ⟨value, hvalue, rfl⟩ := List.mem_map.mp hstmt
    refine sealed_printCall (hfresh value hvalue) (fun node hnode => hsealed node ?_) node hnode
    exact Expr.mem_nodesAll.mpr ⟨value, hvalue, hnode⟩
  · rwa [owners_printCalls]

mutual

/-- A steady statement is prepared. -/
theorem ownedBody_rebuildM {stmt : Stmt} {boxed : List Stmt} {before after : List TempDecl}
    (hsteady : ∀ stmt' ∈ stmt.nested, Steady stmt'.nodes)
    (hbox : (stmt.rebuildM (boxExpr table) boxStmt).run before = .ok (boxed, after)) :
    OwnedBody before (Stmt.nestedBody boxed) after := by
  cases stmt with
  | assign span targets value =>
      simp only [Stmt.nested, List.forall_mem_singleton, Stmt.nodes, Stmt.exprs,
        Expr.nodesAll_append, Expr.nodesAll, List.append_nil, steady_append] at hsteady
      simp only [Stmt.rebuildM, StateT.run_bind, Inference.bind_eq_ok, Prod.exists] at hbox
      obtain ⟨targets', _, htargets, value', _, hvalue, hbox⟩ := hbox
      cases hbox
      have hexprs := (prepared_rebuildAllM hsteady.1 htargets).append
        (prepared_rebuildM hsteady.2 hvalue)
      exact Prepared.body (.assign span targets' value') hexprs
  | augAssign span target op value =>
      simp only [Stmt.nested, List.forall_mem_singleton, Stmt.nodes, Stmt.exprs, Expr.nodesAll,
        List.append_nil, steady_append] at hsteady
      simp only [Stmt.rebuildM, StateT.run_bind, Inference.bind_eq_ok, Prod.exists] at hbox
      obtain ⟨target', _, htarget, value', _, hvalue, hbox⟩ := hbox
      cases hbox
      have hexprs := (prepared_rebuildM hsteady.1 htarget).append
        (prepared_rebuildM hsteady.2 hvalue)
      exact Prepared.body (.augAssign span target' op value') hexprs
  | forIn span target iter body orelse index =>
      simp only [Stmt.nested, List.forall_mem_cons, List.forall_mem_append, Stmt.nodes, Stmt.exprs,
        Expr.nodesAll, steady_append] at hsteady
      obtain ⟨⟨htarget, hiter, hindex⟩, hbody, horelse⟩ := hsteady
      simp only [Stmt.rebuildM, StateT.run_bind, Inference.bind_eq_ok, Prod.exists] at hbox
      obtain ⟨target', _, htarget', iter', _, hiter', index', _, hindex', body', _, hbody', orelse',
        _, horelse', hbox⟩ := hbox
      cases hbox
      have hexprs := (prepared_rebuildM htarget htarget').append
        ((prepared_rebuildM hiter hiter').append (prepared_rebuildPartM hindex hindex'))
      simp only [Stmt.nestedBody, Stmt.nested, List.append_nil]
      exact (Prepared.body (.forIn span target' iter' body' orelse' index') hexprs).append
        ((ownedBody_rebuildBodyM hbody hbody').append (ownedBody_rebuildBodyM horelse horelse'))
  | whileLoop span test body orelse | branch span test body orelse =>
      simp only [Stmt.nested, List.forall_mem_cons, List.forall_mem_append, Stmt.nodes, Stmt.exprs,
        Expr.nodesAll, List.append_nil] at hsteady
      obtain ⟨htest, hbody, horelse⟩ := hsteady
      simp only [Stmt.rebuildM, StateT.run_bind, Inference.bind_eq_ok, Prod.exists] at hbox
      obtain ⟨test', _, htest', body', _, hbody', orelse', _, horelse', hbox⟩ := hbox
      cases hbox
      simp only [Stmt.nestedBody, Stmt.nested, List.append_nil]
      exact (Prepared.body _ (by exact prepared_rebuildM htest htest')).append
        ((ownedBody_rebuildBodyM hbody hbody').append (ownedBody_rebuildBodyM horelse horelse'))
  | ret span value =>
      simp only [Stmt.nested, List.forall_mem_singleton] at hsteady
      simp only [Stmt.rebuildM, StateT.run_bind, Inference.bind_eq_ok, Prod.exists] at hbox
      obtain ⟨value', _, hvalue, hbox⟩ := hbox
      cases hbox
      exact Prepared.body (.ret span value') (prepared_rebuildPartM hsteady hvalue)
  | expr span value =>
      simp only [Stmt.nested, List.forall_mem_singleton, Stmt.nodes, Stmt.exprs, Expr.nodesAll,
        List.append_nil] at hsteady
      simp only [Stmt.rebuildM, StateT.run_bind, Inference.bind_eq_ok, Prod.exists] at hbox
      obtain ⟨value', _, hvalue, hbox⟩ := hbox
      cases hbox
      exact Prepared.body (.expr span value') (prepared_rebuildM hsteady hvalue)
  | print span values dest newline =>
      simp only [Stmt.nested, List.forall_mem_singleton, Stmt.nodes, Stmt.exprs,
        Expr.nodesAll_append, steady_append] at hsteady
      simp only [Stmt.rebuildM, StateT.run_bind, Inference.bind_eq_ok, Prod.exists] at hbox
      obtain ⟨dest', _, hdest, values', _, hvalues, hbox⟩ := hbox
      cases dest' with
      | some => cases hbox
      | none =>
          have hdest := prepared_rebuildPartM hsteady.1 hdest
          have hvalues := prepared_rebuildAllM hsteady.2 hvalues
          cases hbox
          rw [nestedBody_printCalls]
          exact (hdest.append hvalues).printCalls
  | _ =>
      cases hbox
      exact Prepared.body _ (.refl _)
termination_by structural stmt

theorem ownedBody_rebuildBodyM {body boxed : List Stmt} {before after : List TempDecl}
    (hsteady : ∀ stmt ∈ Stmt.nestedBody body, Steady stmt.nodes)
    (hbox : (Stmt.rebuildBodyM (boxExpr table) boxStmt body).run before = .ok (boxed, after)) :
    OwnedBody before (Stmt.nestedBody boxed) after := by
  cases body with
  | nil =>
      cases hbox
      exact .refl _
  | cons stmt body =>
      obtain ⟨hstmt, hbody⟩ := List.forall_mem_append.mp hsteady
      simp only [Stmt.rebuildBodyM, StateT.run_bind, StateT.run_pure, Inference.bind_eq_ok,
        Inference.pure_eq_ok, Prod.exists, Prod.mk.injEq] at hbox
      obtain ⟨stmts, middle, hstmts, rest, _, hrest, rfl, rfl⟩ := hbox
      rw [Stmt.nestedBody_append]
      exact (ownedBody_rebuildM hstmt hstmts).append (ownedBody_rebuildBodyM hbody hrest)
termination_by structural body

end

end Boxing

/-! ## Counted loops -/

namespace Loops

open Boxing

/-- Temporaries were added, none of them for objects. -/
structure Spares (before after : List TempDecl) : Prop where
  numbered : Numbered before → Numbered after
  kinds : (∀ decl ∈ before, decl.kind ≠ .object) → ∀ decl ∈ after, decl.kind ≠ .object

theorem Spares.refl (temps : List TempDecl) : Spares temps temps := ⟨id, id⟩

theorem Spares.trans {before middle after : List TempDecl} (hfirst : Spares before middle)
    (hsecond : Spares middle after) : Spares before after :=
  ⟨hsecond.numbered ∘ hfirst.numbered, hsecond.kinds ∘ hfirst.kinds⟩

theorem spares_allocate {ty : Ty} {kind : TempKind} {before after : List TempDecl} {id : TempId}
    (hkind : kind ≠ .object) (hreach : Pass.Reaches (allocate ty kind) before id after) :
    Spares before after := by
  obtain ⟨rfl, rfl⟩ := reaches_allocate.mp hreach
  refine ⟨fun hnumbered => hnumbered.next ty kind, fun hkinds => ?_⟩
  exact List.forall_mem_append.mpr ⟨hkinds, List.forall_mem_singleton.mpr hkind⟩

variable {table : SymbolTable} {indexType : Ty} {span : Span} {target iter : Expr}
  {body orelse lowered : List Stmt} {before after : List TempDecl}

theorem spares_evaluateOnce {ty : Ty} {result : List Stmt × Expr}
    (hreach : Pass.Reaches (evaluateOnce iter ty) before result after) : Spares before after := by
  unfold evaluateOnce at hreach
  split at hreach
  · obtain ⟨_, rfl⟩ := Pass.reaches_pure.mp hreach
    exact .refl _
  · simp only [Pass.reaches_bind, Pass.reaches_pure] at hreach
    obtain ⟨_, _, hallocate, _, rfl⟩ := hreach
    exact spares_allocate (by decide) hallocate

theorem spares_lowerLoop (hlower : Pass.Reaches
    (lowerLoop table indexType span target iter body orelse) before lowered after) :
    Spares before after := by
  unfold lowerLoop at hlower
  split at hlower
  · exact absurd hlower Pass.not_reaches_throw
  · dsimp only at hlower
    split at hlower
    · simp only [pure_bind, Pass.reaches_bind, Pass.reaches_lift, Pass.reaches_pure] at hlower
      obtain ⟨_, _, ⟨_, rfl⟩, _, rfl⟩ := hlower
      exact .refl _
    · simp only [pure_bind, Pass.reaches_bind, Pass.reaches_lift, Pass.reaches_pure] at hlower
      obtain ⟨_, _, honce, _, _, hallocate, _, _, ⟨_, rfl⟩, _, rfl⟩ := hlower
      exact (spares_evaluateOnce honce).trans (spares_allocate (by decide) hallocate)
    · simp only [Pass.reaches_bind, Pass.not_reaches_throw, false_and, exists_false] at hlower

theorem steady_convert {ty : Ty} {e : Expr} (he : Steady e.nodes) :
    Steady (e.convert table ty).nodes := by
  unfold Expr.convert
  split
  · exact he
  · exact steady_cons.mpr ⟨rfl, he⟩

theorem steady_positions {array : Expr} (harray : Steady array.nodes) :
    Steady (positions table indexType array span).nodes := by
  have hlength : Steady (arrayLength array span).nodes := by
    simp [arrayLength, int, Expr.nodes, Expr.isTransient, harray]
  simp [positions, int, Expr.nodes, Expr.isTransient, steady_convert hlength]

theorem steady_storeElement {array : Expr} {elem : Ty} {id : TempId}
    (htarget : Steady target.nodes) (harray : Steady array.nodes) :
    Steady (storeElement table target array (temp id .load indexType span) elem span).nodes := by
  have helement : Steady (Expr.subscript (.annotated span elem) array
      (temp id .load indexType span) .load).nodes := by
    simp [temp, Expr.nodes, Expr.isTransient, harray]
  simp [storeElement, Stmt.nodes, Stmt.exprs, Expr.nodesAll, htarget, steady_convert helement]

/-- A counted loop is steady if its parts are. -/
theorem Counted.steady (hcounted : Counted table indexType span target iter body orelse before
      lowered after) (hname : target.asName.isSome) (htarget : Steady target.nodes)
    (hiter : Steady iter.nodes) (hbody : ∀ stmt ∈ Stmt.nestedBody body, Steady stmt.nodes)
    (horelse : ∀ stmt ∈ Stmt.nestedBody orelse, Steady stmt.nodes) :
    ∀ stmt ∈ Stmt.nestedBody lowered, Steady stmt.nodes := by
  have hoverArray {array : Expr} {elem : Ty} {id : TempId} (harray : Steady array.nodes) :
      ∀ stmt ∈ (overArray table indexType span target array elem body orelse id).nested,
        Steady stmt.nodes := by
    simp only [overArray, Stmt.nested, Stmt.nestedBody, storeElement, List.forall_mem_cons,
      List.forall_mem_append]
    refine ⟨?_, ⟨⟨steady_storeElement htarget harray, List.forall_mem_nil _⟩, hbody⟩, horelse⟩
    simp [Stmt.nodes, Stmt.exprs, Expr.nodesAll, temp, Expr.nodes, Expr.isTransient, htarget,
      steady_positions harray]
  cases hcounted with
  | range hiterTy =>
      obtain ⟨name, hname⟩ := Option.isSome_iff_exists.mp hname
      obtain ⟨note, access, rfl⟩ := Expr.eq_name_of_asName hname
      simp only [Stmt.nestedBody, Stmt.nested, List.append_nil, List.forall_mem_cons,
        List.forall_mem_append]
      refine ⟨?_, hbody, horelse⟩
      simp [Stmt.nodes, Stmt.exprs, Expr.nodesAll, Expr.withAccess, Expr.nodes, Expr.isTransient,
        hiter]
  | named => simpa only [Stmt.nestedBody, List.append_nil] using hoverArray hiter
  | stored =>
      simp only [Stmt.nestedBody, List.append_nil]
      refine List.forall_mem_append.mpr ⟨List.forall_mem_singleton.mpr ?_, hoverArray ?_⟩
      · simp [Stmt.nodes, Stmt.exprs, Expr.nodesAll, temp, Expr.nodes, Expr.isTransient, hiter]
      · simp [temp, Expr.nodes, Expr.isTransient]

mutual

theorem steady_lowerStmt {stmt : Stmt} {lowered : List Stmt} {before after : List TempDecl}
    (hsteady : ∀ stmt' ∈ stmt.nested, Steady stmt'.nodes)
    (hlower : Pass.Reaches (Stmt.rebuildM pure (lowerStmt table indexType) stmt) before lowered
      after) :
    (∀ stmt' ∈ Stmt.nestedBody lowered, Steady stmt'.nodes) ∧ Spares before after := by
  cases stmt with
  | forIn span target iter body orelse index =>
      simp only [Stmt.nested, List.forall_mem_cons, List.forall_mem_append, Stmt.nodes, Stmt.exprs,
        Expr.nodesAll, steady_append] at hsteady
      obtain ⟨⟨htarget, hiter, _⟩, hbody, horelse⟩ := hsteady
      simp only [Stmt.rebuildM, Expr.rebuildM_pure, Expr.rebuildPartM_pure, pure_bind,
        Pass.reaches_bind, lowerStmt] at hlower
      obtain ⟨body', _, hbody', orelse', _, horelse', hloop⟩ := hlower
      obtain ⟨hname, hcounted⟩ := counted_lowerLoop hloop
      obtain ⟨hbody, hfirst⟩ := steady_lowerBody hbody hbody'
      obtain ⟨horelse, hsecond⟩ := steady_lowerBody horelse horelse'
      exact ⟨hcounted.steady hname htarget hiter hbody horelse,
        hfirst.trans (hsecond.trans (spares_lowerLoop hloop))⟩
  | whileLoop span test body orelse | branch span test body orelse =>
      simp only [Stmt.nested, List.forall_mem_cons, List.forall_mem_append] at hsteady
      obtain ⟨htest, hbody, horelse⟩ := hsteady
      simp only [Stmt.rebuildM, Expr.rebuildM_pure, pure_bind, Pass.reaches_bind, lowerStmt,
        Pass.reaches_pure] at hlower
      obtain ⟨body', _, hbody', orelse', _, horelse', rfl, rfl⟩ := hlower
      obtain ⟨hbody, hfirst⟩ := steady_lowerBody hbody hbody'
      obtain ⟨horelse, hsecond⟩ := steady_lowerBody horelse horelse'
      refine ⟨?_, hfirst.trans hsecond⟩
      simp only [Stmt.nestedBody, Stmt.nested, List.append_nil, List.forall_mem_cons,
        List.forall_mem_append]
      exact ⟨htest, hbody, horelse⟩
  | _ =>
      simp only [Stmt.rebuildM, Expr.rebuildM_pure, Expr.rebuildAllM_pure, Expr.rebuildPartM_pure,
        pure_bind, lowerStmt, Pass.reaches_pure] at hlower
      obtain ⟨rfl, rfl⟩ := hlower
      exact ⟨by simpa only [Stmt.nestedBody, List.append_nil] using hsteady, .refl _⟩
termination_by structural stmt

theorem steady_lowerBody {body lowered : List Stmt} {before after : List TempDecl}
    (hsteady : ∀ stmt ∈ Stmt.nestedBody body, Steady stmt.nodes)
    (hlower : Pass.Reaches (Stmt.rebuildBodyM pure (lowerStmt table indexType) body) before lowered
      after) :
    (∀ stmt ∈ Stmt.nestedBody lowered, Steady stmt.nodes) ∧ Spares before after := by
  cases body with
  | nil =>
      simp only [Stmt.rebuildBodyM, Pass.reaches_pure] at hlower
      obtain ⟨rfl, rfl⟩ := hlower
      exact ⟨List.forall_mem_nil _, .refl _⟩
  | cons stmt body =>
      obtain ⟨hstmt, hbody⟩ := List.forall_mem_append.mp hsteady
      simp only [Stmt.rebuildBodyM, Pass.reaches_bind, Pass.reaches_pure] at hlower
      obtain ⟨stmts, _, hstmt', rest, _, hbody', rfl, rfl⟩ := hlower
      obtain ⟨hstmt, hfirst⟩ := steady_lowerStmt hstmt hstmt'
      obtain ⟨hbody, hsecond⟩ := steady_lowerBody hbody hbody'
      rw [Stmt.nestedBody_append]
      exact ⟨List.forall_mem_append.mpr ⟨hstmt, hbody⟩, hfirst.trans hsecond⟩
termination_by structural body

end

end Loops

/-! ## Functions -/

namespace FunctionDef

/-- A steady function is given owners for all its boxed values. -/
theorem ownsBoxed_box {table : SymbolTable} {signature : FunctionType} {func boxed : FunctionDef}
    (hsteady : ∀ stmt ∈ func.statements, Steady stmt.nodes) (hnumbered : Numbered func.temps)
    (hkinds : ∀ decl ∈ func.temps, decl.kind ≠ .object)
    (hbox : func.box table signature = .ok boxed) : boxed.OwnsBoxed := by
  simp only [box, Inference.bind_eq_ok, Inference.pure_eq_ok, Prod.exists] at hbox
  obtain ⟨body, temps, hbody, rfl⟩ := hbox
  obtain ⟨hexprs, hsealed, hadds⟩ := Boxing.ownedBody_rebuildBodyM hsteady hbody
  obtain ⟨made, rfl, hmade, hperm⟩ := hadds.made
  have hobjects : (func.temps ++ made).filter (fun decl => decl.kind = .object) = made := by
    have hmade' : made.filter (fun decl => decl.kind = .object) = made :=
      List.filter_eq_self.mpr fun decl hdecl => decide_eq_true (hmade decl hdecl).1
    rw [List.filter_append, List.filter_eq_nil_iff.mpr (by simpa using hkinds), hmade',
      List.nil_append]
  have hnodup := (hadds.numbered hnumbered).nodup
  rw [List.map_append] at hnodup
  refine ⟨hexprs, hsealed, hperm.nodup_iff.mpr (List.nodup_append.mp hnodup).2.1, ?_, ?_⟩
  · rw [hobjects]
    exact hperm
  · intro decl hdecl hkind
    rcases List.mem_append.mp hdecl with hdecl | hdecl
    · exact absurd hkind (hkinds decl hdecl)
    · exact (hmade decl hdecl).2

/-- Fixing types leaves no transient forms in a function. -/
theorem steady_typed {setting : Inference.Setting} {func typed : FunctionDef}
    {signature : Signature} {inferred : Inferred}
    (huncounted : ∀ stmt ∈ func.statements, stmt.Uncounted)
    (hinfer : Pass.Succeeds (Inference.inferFunction setting func signature) inferred)
    (htyped : Pass.Succeeds (inferred.func.typed inferred.symbols) typed) :
    ∀ stmt ∈ typed.statements, Steady stmt.nodes := by
  obtain ⟨hsound, _, _⟩ := sound_typed huncounted hinfer htyped
  intro stmt hstmt node hnode
  have hagrees := ((hsound stmt hstmt).1 node hnode).2
  cases node with
  | deferredCoercion => exact hagrees.elim
  | objectTemp => exact hagrees.elim
  | _ => rfl

/-- Counting loops adds no transient forms and no temporaries for objects. -/
theorem steady_counted {table : SymbolTable} {indexType : Ty} {func counted : FunctionDef}
    (hsteady : ∀ stmt ∈ func.statements, Steady stmt.nodes)
    (hcounted : Pass.Succeeds (func.counted table indexType) counted) :
    (∀ stmt ∈ counted.statements, Steady stmt.nodes) ∧ Loops.Spares func.temps counted.temps := by
  simp only [FunctionDef.counted, Pass.succeeds_bind, Pass.succeeds_pure] at hcounted
  obtain ⟨⟨body, temps⟩, hbody, _, _, rfl⟩ := hcounted
  exact Loops.steady_lowerBody hsteady hbody

/-- In a compiled function every boxed value has one owner. Inference refuses temporaries and other
lowered forms, so the function of the source must only come without temporaries and counters. -/
theorem ownsBoxed_compile {setting : Inference.Setting} {func : FunctionDef} {signature : Signature}
    {compiled : Compiled} (huncounted : ∀ stmt ∈ func.statements, stmt.Uncounted)
    (htemps : func.temps = [])
    (hcompile : Pass.Succeeds (func.compile setting signature) compiled) :
    compiled.func.OwnsBoxed := by
  simp only [compile, Pass.succeeds_bind, Pass.succeeds_pure] at hcompile
  obtain ⟨_, _, inferred, hinfer, typed, htyped, counted, hcounted, boxed, hboxed, _, _, rfl⟩ :=
    hcompile
  obtain ⟨_, hkept, _⟩ := sound_typed huncounted hinfer htyped
  obtain ⟨hsteady, hspares⟩ := steady_counted (steady_typed huncounted hinfer htyped) hcounted
  rw [hkept, htemps] at hspares
  simp only [FunctionDef.boxed, Pass.succeeds_bind, Pass.succeeds_ofExcept,
    Pass.succeeds_pure] at hboxed
  obtain ⟨_, hbox, _, _, rfl⟩ := hboxed
  exact ownsBoxed_box hsteady (hspares.numbered rfl) (hspares.kinds (List.forall_mem_nil _)) hbox

end FunctionDef

/-- A function that packs tuples, makes a dictionary and calls the host. -/
def wrapping : FunctionDef :=
  open Builder in
  function "wrapping" ["x", "ys"]
    [print [load "x", tuple [load "x", int 1]],
      forIn (store "y") (load "ys")
        [assign (store "x") (tuple [load "x", call (load "g") [load "y", .dict {} [] []]])],
      ret (some (load "x"))]

/-- A namespace without builtins. -/
def globalsOnly : Inference.Setting := { names := ⟨fun _ => .global, fun _ _ => none⟩ }

theorem ownsBoxed_compile_wrapping : ∃ compiled,
    Pass.Succeeds (wrapping.compile globalsOnly { args := [.object, .strided .float64 1] })
      compiled ∧
    (compiled.func.temps.map TempDecl.kind =
      [.index, .object, .object, .object, .object]) ∧
    compiled.func.OwnsBoxed := by
  obtain ⟨compiled, hcompile, htest⟩ : ∃ compiled,
      Pass.Succeeds (wrapping.compile globalsOnly { args := [.object, .strided .float64 1] })
        compiled ∧
      decide (compiled.func.temps.map TempDecl.kind =
        [.index, .object, .object, .object, .object]) = true :=
    Pass.exists_succeeds (fun _ _ => .host) (by decide +kernel)
  refine ⟨compiled, hcompile, of_decide_eq_true htest, ?_⟩
  refine FunctionDef.ownsBoxed_compile ?_ rfl hcompile
  simp [wrapping, Builder.function, Builder.assign, Builder.forIn, Builder.print, Builder.ret,
    FunctionDef.statements, Stmt.nestedBody, Stmt.nested, Stmt.Uncounted]

end KernelFront
