import KernelFront.Proofs.Annotation
import KernelFront.Proofs.Format.Scalars
import Mathlib.Data.List.Forall2

/-! # What fixing types does

Fixing the types of a function succeeds exactly if every expression that is reached has a type to
fix, and then it changes nothing but types and the conversions that wait for one. A walk that keeps
every statement is described by a relation on expressions; for fixing types this relation says what
becomes of each node, from the leaves up.
-/

namespace KernelFront

open Inference (bind_eq_ok pure_eq_ok)

theorem exists_forall₂_iff {α β : Type} {Rel : α → β → Prop} {first : List α} :
    (∃ second, List.Forall₂ Rel first second) ↔ ∀ a ∈ first, ∃ b, Rel a b := by
  induction first with
  | nil => simp
  | cons a first ih =>
      simp only [List.forall_mem_cons, ← ih, List.forall₂_cons_left_iff]
      constructor
      · rintro ⟨_, b, second, hb, hsecond, -⟩
        exact ⟨⟨b, hb⟩, second, hsecond⟩
      · rintro ⟨⟨b, hb⟩, second, hsecond⟩
        exact ⟨_, b, second, hb, hsecond, rfl⟩

/-! ## Walks that keep statements -/

/-- A statement became the same statement, at every depth, with other expressions. -/
inductive Stmt.Rewritten (Rel : Expr → Expr → Prop) : Stmt → Stmt → Prop where
  | mk {stmt rebuilt : Stmt} (hshape : stmt.Reshaped Rel rebuilt)
      (hbodies : List.Forall₂ (List.Forall₂ (Rewritten Rel)) stmt.bodies rebuilt.bodies) :
      Rewritten Rel stmt rebuilt

section Rewritten

variable {Rel : Expr → Expr → Prop}

theorem Stmt.Reshaped.exprs {stmt rebuilt : Stmt} (hshape : stmt.Reshaped Rel rebuilt) :
    List.Forall₂ Rel stmt.exprs rebuilt.exprs := by
  cases hshape with
  | assign htargets hvalue => exact List.rel_append htargets (.cons hvalue .nil)
  | augAssign htarget hvalue => exact .cons htarget (.cons hvalue .nil)
  | forIn htarget hiter hindex => exact .cons htarget (.cons hiter hindex)
  | whileLoop htest | branch htest => exact .cons htest .nil
  | ret hvalue => exact hvalue
  | expr hvalue => exact .cons hvalue .nil
  | print hvalues hdest => exact List.rel_append hdest hvalues
  | _ => exact .nil

theorem Stmt.Rewritten.shape {stmt rebuilt : Stmt} (hrewritten : stmt.Rewritten Rel rebuilt) :
    stmt.Reshaped Rel rebuilt := by
  obtain ⟨hshape, -⟩ := hrewritten
  exact hshape

theorem Stmt.Rewritten.bodies {stmt rebuilt : Stmt} (hrewritten : stmt.Rewritten Rel rebuilt) :
    List.Forall₂ (List.Forall₂ (Stmt.Rewritten Rel)) stmt.bodies rebuilt.bodies := by
  obtain ⟨-, hbodies⟩ := hrewritten
  exact hbodies

mutual

/-- The statements at every depth are the same with other expressions. -/
theorem Stmt.Rewritten.nested {stmt rebuilt : Stmt} (hrewritten : stmt.Rewritten Rel rebuilt) :
    List.Forall₂ (Stmt.Reshaped Rel) stmt.nested rebuilt.nested := by
  rw [Stmt.nested_eq stmt, Stmt.nested_eq rebuilt]
  refine .cons hrewritten.shape ?_
  have hbodies := hrewritten.bodies
  cases stmt with
  | forIn _ _ _ body orelse | whileLoop _ _ body orelse | branch _ _ body orelse =>
      obtain ⟨body', _, hbody, hrest, heq⟩ := List.forall₂_cons_left_iff.mp hbodies
      obtain ⟨orelse', _, horelse, hnil, rfl⟩ := List.forall₂_cons_left_iff.mp hrest
      obtain rfl := List.forall₂_nil_left_iff.mp hnil
      rw [heq]
      exact List.rel_append (rewritten_nestedBody hbody)
        (List.rel_append (rewritten_nestedBody horelse) .nil)
  | _ =>
      rw [List.forall₂_nil_left_iff.mp hbodies]
      exact .nil
termination_by structural stmt

theorem rewritten_nestedBody {body rebuilt : List Stmt}
    (hrewritten : List.Forall₂ (Stmt.Rewritten Rel) body rebuilt) :
    List.Forall₂ (Stmt.Reshaped Rel) (Stmt.nestedBody body) (Stmt.nestedBody rebuilt) := by
  cases body with
  | nil =>
      rw [List.forall₂_nil_left_iff.mp hrewritten]
      exact .nil
  | cons stmt body =>
      obtain ⟨stmt', body', hstmt, hbody, rfl⟩ := List.forall₂_cons_left_iff.mp hrewritten
      exact List.rel_append (Stmt.Rewritten.nested hstmt) (rewritten_nestedBody hbody)
termination_by structural body

end

theorem Stmt.reshaped_self {stmt : Stmt} (hexprs : ∀ e ∈ stmt.exprs, Rel e e) :
    stmt.Reshaped Rel stmt := by
  have hsame {es : List Expr} (hes : ∀ e ∈ es, Rel e e) : List.Forall₂ Rel es es :=
    List.forall₂_same.mpr hes
  cases stmt with
  | assign span targets value =>
      obtain ⟨htargets, hvalue⟩ := List.forall_mem_append.mp hexprs
      exact .assign (hsame htargets) (hvalue value List.mem_cons_self)
  | augAssign span target op value =>
      obtain ⟨htarget, hvalue⟩ := List.forall_mem_cons.mp hexprs
      exact .augAssign htarget (hvalue value List.mem_cons_self)
  | forIn span target iter body orelse index =>
      obtain ⟨htarget, hrest⟩ := List.forall_mem_cons.mp hexprs
      obtain ⟨hiter, hindex⟩ := List.forall_mem_cons.mp hrest
      exact .forIn htarget hiter (hsame hindex) id
  | whileLoop span test => exact .whileLoop (hexprs test List.mem_cons_self) id
  | branch span test => exact .branch (hexprs test List.mem_cons_self)
  | ret span value => exact .ret (hsame hexprs)
  | expr span value => exact .expr (hexprs value List.mem_cons_self)
  | print span values dest =>
      obtain ⟨hdest, hvalues⟩ := List.forall_mem_append.mp hexprs
      exact .print (hsame hvalues) (hsame hdest)
  | _ => constructor

mutual

theorem Stmt.rewritten_self {stmt : Stmt}
    (hexprs : ∀ inner ∈ stmt.nested, ∀ e ∈ inner.exprs, Rel e e) : stmt.Rewritten Rel stmt := by
  rw [Stmt.nested_eq] at hexprs
  obtain ⟨hself, hbelow⟩ := List.forall_mem_cons.mp hexprs
  refine .mk (Stmt.reshaped_self hself) ?_
  cases stmt with
  | forIn _ _ _ body orelse | whileLoop _ _ body orelse | branch _ _ body orelse =>
      obtain ⟨hbody, hrest⟩ := List.forall_mem_append.mp hbelow
      obtain ⟨horelse, -⟩ := List.forall_mem_append.mp hrest
      exact .cons (rewrittenBody_self hbody) (.cons (rewrittenBody_self horelse) .nil)
  | _ => exact .nil
termination_by structural stmt

theorem rewrittenBody_self {body : List Stmt}
    (hexprs : ∀ inner ∈ Stmt.nestedBody body, ∀ e ∈ inner.exprs, Rel e e) :
    List.Forall₂ (Stmt.Rewritten Rel) body body := by
  cases body with
  | nil => exact .nil
  | cons stmt body =>
      obtain ⟨hstmt, hbody⟩ := List.forall_mem_append.mp hexprs
      exact .cons (Stmt.rewritten_self hstmt) (rewrittenBody_self hbody)
termination_by structural body

end

variable {f : Expr → Except TypeError Expr}

theorem rebuildAllM_eq_ok_iff {es fixed : List Expr}
    (heach : ∀ e ∈ es, ∀ fixed, e.rebuildM f = .ok fixed ↔ Rel e fixed) :
    Expr.rebuildAllM f es = .ok fixed ↔ List.Forall₂ Rel es fixed := by
  induction es generalizing fixed with
  | nil =>
      rw [Expr.rebuildAllM, pure_eq_ok, List.forall₂_nil_left_iff]
      exact eq_comm
  | cons e es ih =>
      obtain ⟨he, hes⟩ := List.forall_mem_cons.mp heach
      simp only [Expr.rebuildAllM, bind_eq_ok, pure_eq_ok, he, ih hes,
        List.forall₂_cons_left_iff]
      constructor
      · rintro ⟨e', he', es', hes', rfl⟩
        exact ⟨e', es', he', hes', rfl⟩
      · rintro ⟨e', es', he', hes', rfl⟩
        exact ⟨e', he', es', hes', rfl⟩

theorem rebuildPartM_eq_ok_iff {part fixed : Option Expr}
    (heach : ∀ e fixed, e.rebuildM f = .ok fixed ↔ Rel e fixed) :
    Expr.rebuildPartM f part = .ok fixed ↔ List.Forall₂ Rel part.toList fixed.toList := by
  cases part with
  | none =>
      rw [Expr.rebuildPartM, pure_eq_ok, Option.toList_none, List.forall₂_nil_left_iff,
        Option.toList_eq_nil_iff]
      exact eq_comm
  | some e =>
      simp only [Expr.rebuildPartM, bind_eq_ok, pure_eq_ok, heach, Option.toList_some,
        List.forall₂_cons_left_iff, List.forall₂_nil_left_iff]
      constructor
      · rintro ⟨e', he', rfl⟩
        exact ⟨e', [], he', rfl, rfl⟩
      · rintro ⟨e', _, he', rfl, heq⟩
        exact ⟨e', he', (Option.toList_eq_singleton_iff.mp heq).symm⟩

mutual

/-- A walk that keeps statements succeeds with the statement of the rewritten expressions. -/
theorem rebuildM_eq_ok_iff (stmt : Stmt) {result : List Stmt}
    (heach : ∀ e fixed, e.rebuildM f = .ok fixed ↔ Rel e fixed) :
    stmt.rebuildM f (fun stmt => pure [stmt]) = .ok result ↔
      ∃ rebuilt, stmt.Rewritten Rel rebuilt ∧ result = [rebuilt] := by
  have hall (es fixed : List Expr) :
      Expr.rebuildAllM f es = .ok fixed ↔ List.Forall₂ Rel es fixed :=
    rebuildAllM_eq_ok_iff fun e _ => heach e
  have hpart (part fixed : Option Expr) :
      Expr.rebuildPartM f part = .ok fixed ↔ List.Forall₂ Rel part.toList fixed.toList :=
    rebuildPartM_eq_ok_iff heach
  cases stmt with
  | assign span targets value =>
      simp only [Stmt.rebuildM, bind_eq_ok, pure_eq_ok, heach, hall]
      constructor
      · rintro ⟨targets', htargets, value', hvalue, rfl⟩
        exact ⟨_, .mk (.assign htargets hvalue) .nil, rfl⟩
      · rintro ⟨_, ⟨hshape, -⟩, rfl⟩
        cases hshape with
        | assign htargets hvalue =>
            exact ⟨_, htargets, _, hvalue, rfl⟩
  | augAssign span target op value =>
      simp only [Stmt.rebuildM, bind_eq_ok, pure_eq_ok, heach]
      constructor
      · rintro ⟨target', htarget, value', hvalue, rfl⟩
        exact ⟨_, .mk (.augAssign htarget hvalue) .nil, rfl⟩
      · rintro ⟨_, ⟨hshape, -⟩, rfl⟩
        cases hshape with
        | augAssign htarget hvalue =>
            exact ⟨_, htarget, _, hvalue, rfl⟩
  | forIn span target iter body orelse index =>
      simp only [Stmt.rebuildM, bind_eq_ok, pure_eq_ok, heach, hpart,
        rebuildBodyM_eq_ok_iff body heach, rebuildBodyM_eq_ok_iff orelse heach]
      constructor
      · rintro ⟨target', htarget, iter', hiter, index', hindex, body', hbody, orelse', horelse, rfl⟩
        refine ⟨_, .mk (.forIn htarget hiter hindex fun hempty => ?_)
          (.cons hbody (.cons horelse .nil)), rfl⟩
        exact List.forall₂_nil_left_iff.mp (hempty ▸ horelse)
      · rintro ⟨_, ⟨hshape, hbodies⟩, rfl⟩
        cases hshape with
        | forIn htarget hiter hindex =>
            obtain ⟨hbody, hrest⟩ := List.forall₂_cons.mp hbodies
            obtain ⟨horelse, -⟩ := List.forall₂_cons.mp hrest
            exact ⟨_, htarget, _, hiter, _, hindex, _, hbody, _, horelse, rfl⟩
  | whileLoop span test body orelse =>
      simp only [Stmt.rebuildM, bind_eq_ok, pure_eq_ok, heach,
        rebuildBodyM_eq_ok_iff body heach, rebuildBodyM_eq_ok_iff orelse heach]
      constructor
      · rintro ⟨test', htest, body', hbody, orelse', horelse, rfl⟩
        refine ⟨_, .mk (.whileLoop htest fun hempty => ?_) (.cons hbody (.cons horelse .nil)), rfl⟩
        exact List.forall₂_nil_left_iff.mp (hempty ▸ horelse)
      · rintro ⟨_, ⟨hshape, hbodies⟩, rfl⟩
        cases hshape with
        | whileLoop htest =>
            obtain ⟨hbody, hrest⟩ := List.forall₂_cons.mp hbodies
            obtain ⟨horelse, -⟩ := List.forall₂_cons.mp hrest
            exact ⟨_, htest, _, hbody, _, horelse, rfl⟩
  | branch span test body orelse =>
      simp only [Stmt.rebuildM, bind_eq_ok, pure_eq_ok, heach,
        rebuildBodyM_eq_ok_iff body heach, rebuildBodyM_eq_ok_iff orelse heach]
      constructor
      · rintro ⟨test', htest, body', hbody, orelse', horelse, rfl⟩
        exact ⟨_, .mk (.branch htest) (.cons hbody (.cons horelse .nil)), rfl⟩
      · rintro ⟨_, ⟨hshape, hbodies⟩, rfl⟩
        cases hshape with
        | branch htest =>
            obtain ⟨hbody, hrest⟩ := List.forall₂_cons.mp hbodies
            obtain ⟨horelse, -⟩ := List.forall₂_cons.mp hrest
            exact ⟨_, htest, _, hbody, _, horelse, rfl⟩
  | ret span value =>
      simp only [Stmt.rebuildM, bind_eq_ok, pure_eq_ok, hpart]
      constructor
      · rintro ⟨value', hvalue, rfl⟩
        exact ⟨_, .mk (.ret hvalue) .nil, rfl⟩
      · rintro ⟨_, ⟨hshape, -⟩, rfl⟩
        cases hshape with
        | ret hvalue =>
            exact ⟨_, hvalue, rfl⟩
  | expr span value =>
      simp only [Stmt.rebuildM, bind_eq_ok, pure_eq_ok, heach]
      constructor
      · rintro ⟨value', hvalue, rfl⟩
        exact ⟨_, .mk (.expr hvalue) .nil, rfl⟩
      · rintro ⟨_, ⟨hshape, -⟩, rfl⟩
        cases hshape with
        | expr hvalue =>
            exact ⟨_, hvalue, rfl⟩
  | print span values dest newline =>
      simp only [Stmt.rebuildM, bind_eq_ok, pure_eq_ok, hall, hpart]
      constructor
      · rintro ⟨dest', hdest, values', hvalues, rfl⟩
        exact ⟨_, .mk (.print hvalues hdest) .nil, rfl⟩
      · rintro ⟨_, ⟨hshape, -⟩, rfl⟩
        cases hshape with
        | print hvalues hdest =>
            exact ⟨_, hdest, _, hvalues, rfl⟩
  | _ =>
      simp only [Stmt.rebuildM, pure_eq_ok]
      constructor
      · rintro rfl
        exact ⟨_, .mk (by constructor) .nil, rfl⟩
      · rintro ⟨_, ⟨⟨⟩, -⟩, rfl⟩
        rfl
termination_by structural stmt

theorem rebuildBodyM_eq_ok_iff (body : List Stmt) {result : List Stmt}
    (heach : ∀ e fixed, e.rebuildM f = .ok fixed ↔ Rel e fixed) :
    Stmt.rebuildBodyM f (fun stmt => pure [stmt]) body = .ok result ↔
      List.Forall₂ (Stmt.Rewritten Rel) body result := by
  cases body with
  | nil =>
      rw [Stmt.rebuildBodyM, pure_eq_ok, List.forall₂_nil_left_iff]
      exact eq_comm
  | cons stmt body =>
      simp only [Stmt.rebuildBodyM, bind_eq_ok, pure_eq_ok, rebuildM_eq_ok_iff stmt heach,
        rebuildBodyM_eq_ok_iff body heach, List.forall₂_cons_left_iff]
      constructor
      · rintro ⟨_, ⟨stmt', hstmt, rfl⟩, body', hbody, rfl⟩
        exact ⟨stmt', body', hstmt, hbody, rfl⟩
      · rintro ⟨stmt', body', hstmt, hbody, rfl⟩
        exact ⟨_, ⟨stmt', hstmt, rfl⟩, body', hbody, rfl⟩
termination_by structural body

end

end Rewritten

/-! ## Expressions -/

namespace Expr

variable {table : SymbolTable}

/-- The type that is fixed in the place of an expression: a conversion that waits gives way to an
expression of the type of its slot. -/
def settledType? (table : SymbolTable) : Expr → Option Ty
  | .deferredCoercion _ _ slot => table.typeOf? slot
  | e => e.typeIn? table

/-- What becomes of an expression when types are fixed. -/
inductive Settles (table : SymbolTable) : Expr → Expr → Prop where
  /-- Any expression but a conversion that waits keeps its form, its place and its binding, and the
  type of the binding is fixed on it. -/
  | node {e : Expr} {parts : List Expr} {ty : Ty} (hplain : e.isDeferred = false)
      (hparts : List.Forall₂ (Settles table) e.children parts) (hty : e.typeIn? table = some ty) :
      Settles table e ((e.withChildren parts).withTy ty)
  /-- A conversion that waits gives way to its operand if that has the type of the slot. -/
  | collapse {note : Note} {node settled : Expr} {slot : SymbolId} {ty : Ty}
      (hnode : Settles table node settled) (hslot : table.typeOf? slot = some ty)
      (hty : settled.typeIn? table = some ty) :
      Settles table (.deferredCoercion note node slot) settled
  /-- Otherwise it becomes a conversion of its operand to the type of the slot. -/
  | convert {note : Note} {node settled : Expr} {slot : SymbolId} {ty : Ty}
      (hnode : Settles table node settled) (hslot : table.typeOf? slot = some ty)
      (hty : settled.typeIn? table ≠ some ty) :
      Settles table (.deferredCoercion note node slot)
        (.coercion (.annotated settled.span ty) settled ty)

/-- An expression whose type is fixed: no conversion waits in it, and the type on it is the one that
its binding has. -/
structure IsSettled (table : SymbolTable) (e : Expr) : Prop where
  plain : e.isDeferred = false
  ty : ∃ ty, e.ty = some ty ∧ e.typeIn? table = some ty

theorem settledType?_of_plain {e : Expr} (hplain : e.isDeferred = false) :
    e.settledType? table = e.typeIn? table := by
  cases e with
  | deferredCoercion => cases hplain
  | _ => rfl

@[simp] theorem typeIn?_withChildren (e : Expr) (parts : List Expr) :
    (e.withChildren parts).typeIn? table = e.typeIn? table := by
  simp only [typeIn?, boundVar?, binding, ty, note_withChildren]

theorem resolveDeferred_of_plain {e : Expr} (hplain : e.isDeferred = false) :
    e.resolveDeferred table = .ok e := by
  cases e with
  | deferredCoercion => cases hplain
  | _ => rfl

/-- An expression keeps its parts if they are put back. -/
theorem eq_deferredCoercion_of_isDeferred {e : Expr} (hdeferred : e.isDeferred = true) :
    ∃ note node slot, e = .deferredCoercion note node slot := by
  cases e with
  | deferredCoercion note node slot => exact ⟨note, node, slot, rfl⟩
  | _ => cases hdeferred

/-! ### One node -/

theorem settles_iff_of_plain {e fixed : Expr} (hplain : e.isDeferred = false) :
    e.Settles table fixed ↔ ∃ parts, List.Forall₂ (Settles table) e.children parts ∧
      ∃ ty, e.typeIn? table = some ty ∧ fixed = (e.withChildren parts).withTy ty := by
  constructor
  · intro hsettles
    cases hsettles with
    | node _ hparts hty => exact ⟨_, hparts, _, hty, rfl⟩
    | collapse | convert => cases hplain
  · rintro ⟨parts, hparts, ty, hty, rfl⟩
    exact .node hplain hparts hty

theorem settles_deferredCoercion_iff {note : Note} {node fixed : Expr} {slot : SymbolId} :
    (deferredCoercion note node slot).Settles table fixed ↔ ∃ settled, node.Settles table settled ∧
      ∃ ty, table.typeOf? slot = some ty ∧ fixed = settled.convert table ty := by
  constructor
  · intro hsettles
    cases hsettles with
    | node hplain => cases hplain
    | collapse hnode hslot hty => exact ⟨_, hnode, _, hslot, (if_pos hty).symm⟩
    | convert hnode hslot hty => exact ⟨_, hnode, _, hslot, (if_neg hty).symm⟩
  · rintro ⟨settled, hnode, ty, hslot, rfl⟩
    unfold Expr.convert
    split
    next hty => exact .collapse hnode hslot hty
    next hty => exact .convert hnode hslot hty

theorem fixType_eq_ok_iff_of_plain {e fixed : Expr} (hplain : e.isDeferred = false) :
    e.fixType table = .ok fixed ↔ ∃ ty, e.typeIn? table = some ty ∧ fixed = e.withTy ty := by
  simp only [fixType, bind_eq_ok, resolveDeferred_of_plain hplain, Except.ok.injEq,
    exists_eq_left']
  cases e.typeIn? table with
  | none => simp
  | some ty =>
      simp only [pure_eq_ok, Option.some.injEq, exists_eq_left']
      exact eq_comm

theorem isSettled_convert {e : Expr} (ty : Ty) (he : e.IsSettled table) :
    (e.convert table ty).IsSettled table ∧ (e.convert table ty).typeIn? table = some ty := by
  unfold Expr.convert
  split
  next hty => exact ⟨he, hty⟩
  next => exact ⟨⟨rfl, ty, rfl, rfl⟩, rfl⟩

theorem isSettled_withTy {e : Expr} {ty : Ty} (hplain : e.isDeferred = false)
    (hty : e.typeIn? table = some ty) : (e.withTy ty).IsSettled table := by
  refine ⟨?_, ty, ?_, typeIn?_withTy hty⟩
  · rw [withTy, isDeferred_withNote, hplain]
  · rw [withTy, Expr.ty, note_withNote]

theorem IsSettled.withTy {e : Expr} {ty : Ty} (he : e.IsSettled table)
    (hty : e.typeIn? table = some ty) : e.withTy ty = e := by
  obtain ⟨own, hown, htypeIn⟩ := he.ty
  exact withTy_of_ty (hown.trans (htypeIn.symm.trans hty))

theorem fixType_deferredCoercion_eq_ok_iff {note : Note} {node fixed : Expr} {slot : SymbolId}
    (hnode : node.IsSettled table) :
    (deferredCoercion note node slot).fixType table = .ok fixed ↔
      ∃ ty, table.typeOf? slot = some ty ∧ fixed = node.convert table ty := by
  simp only [fixType, bind_eq_ok, resolveDeferred]
  cases table.typeOf? slot with
  | none => simp
  | some ty =>
      obtain ⟨hsettled, hty⟩ := isSettled_convert ty hnode
      simp only [Except.ok.injEq, Option.some.injEq, exists_eq_left', hty, pure_eq_ok,
        hsettled.withTy hty]
      exact eq_comm

/-! ### All nodes -/

/-- Every node of what an expression becomes has its type fixed. -/
theorem Settles.isSettled {e fixed : Expr} (hsettles : e.Settles table fixed) :
    ∀ node ∈ fixed.nodes, node.IsSettled table := by
  induction e using Expr.induct generalizing fixed with
  | hstep e ih =>
      cases hdeferred : e.isDeferred with
      | false =>
          obtain ⟨parts, hparts, ty, hty, rfl⟩ := (settles_iff_of_plain hdeferred).mp hsettles
          rw [nodes_eq]
          refine List.forall_mem_cons.mpr ⟨isSettled_withTy (by simpa using hdeferred) (by simpa), ?_⟩
          intro node hnode
          rw [withTy, children_withNote, children_withChildren hparts.length_eq.symm] at hnode
          obtain ⟨part, hpart, hnode⟩ := mem_nodesAll.mp hnode
          exact forall_of_forall₂ (fun child hchild part hpart => ih child hchild hpart) hparts part
            hpart node hnode
      | true =>
          obtain ⟨note, operand, slot, rfl⟩ := eq_deferredCoercion_of_isDeferred hdeferred
          obtain ⟨settled, hoperand, ty, hslot, rfl⟩ := settles_deferredCoercion_iff.mp hsettles
          have hbelow := ih operand (List.mem_singleton_self operand) hoperand
          have hself := (isSettled_convert ty (hbelow settled settled.mem_nodes_self)).1
          unfold Expr.convert at hself ⊢
          split
          next => exact hbelow
          next hty =>
            rw [if_neg hty] at hself
            exact List.forall_mem_cons.mpr ⟨hself, hbelow⟩

/-- Fixing types makes of an expression what it should. -/
theorem fixTypes_eq_ok_iff {e fixed : Expr} :
    e.fixTypes table = .ok fixed ↔ e.Settles table fixed := by
  unfold fixTypes
  induction e using Expr.induct generalizing fixed with
  | hstep e ih =>
      have hparts (parts : List Expr) : Expr.rebuildAllM (Expr.fixType table) e.children =
          .ok parts ↔ List.Forall₂ (Settles table) e.children parts :=
        rebuildAllM_eq_ok_iff fun part hpart _ => ih part hpart
      simp only [rebuildM_eq, bind_eq_ok, hparts]
      cases hdeferred : e.isDeferred with
      | false =>
          have hplain (parts : List Expr) : (e.withChildren parts).isDeferred = false := by
            simpa using hdeferred
          simp only [fixType_eq_ok_iff_of_plain (hplain _), typeIn?_withChildren,
            settles_iff_of_plain hdeferred]
      | true =>
          obtain ⟨note, operand, slot, rfl⟩ := eq_deferredCoercion_of_isDeferred hdeferred
          rw [settles_deferredCoercion_iff]
          constructor
          · rintro ⟨parts, hparts, hfix⟩
            obtain ⟨settled, _, hsettled, hnil, rfl⟩ := List.forall₂_cons_left_iff.mp hparts
            obtain rfl := List.forall₂_nil_left_iff.mp hnil
            have hself := hsettled.isSettled settled settled.mem_nodes_self
            exact ⟨settled, hsettled, (fixType_deferredCoercion_eq_ok_iff hself).mp hfix⟩
          · rintro ⟨settled, hsettled, hfix⟩
            have hself := hsettled.isSettled settled settled.mem_nodes_self
            exact ⟨[settled], .cons hsettled .nil,
              (fixType_deferredCoercion_eq_ok_iff hself).mpr hfix⟩

/-- Something becomes of an expression if all its nodes have a type to fix. -/
theorem exists_settles_iff {e : Expr} :
    (∃ fixed, e.Settles table fixed) ↔ ∀ node ∈ e.nodes, (node.settledType? table).isSome := by
  induction e using Expr.induct with
  | hstep e ih =>
      have hparts : (∃ parts, List.Forall₂ (Settles table) e.children parts) ↔
          ∀ node ∈ nodesAll e.children, (node.settledType? table).isSome := by
        rw [exists_forall₂_iff]
        constructor
        · intro hparts node hnode
          obtain ⟨part, hpart, hnode⟩ := mem_nodesAll.mp hnode
          exact (ih part hpart).mp (hparts part hpart) node hnode
        · intro hnodes part hpart
          exact (ih part hpart).mpr fun node hnode =>
            hnodes node (mem_nodesAll.mpr ⟨part, hpart, hnode⟩)
      rw [nodes_eq, List.forall_mem_cons, ← hparts]
      cases hdeferred : e.isDeferred with
      | false =>
          simp only [settles_iff_of_plain hdeferred, settledType?_of_plain hdeferred,
            Option.isSome_iff_exists]
          constructor
          · rintro ⟨_, parts, hparts, ty, hty, -⟩
            exact ⟨⟨ty, hty⟩, parts, hparts⟩
          · rintro ⟨⟨ty, hty⟩, parts, hparts⟩
            exact ⟨_, parts, hparts, ty, hty, rfl⟩
      | true =>
          obtain ⟨note, operand, slot, rfl⟩ := eq_deferredCoercion_of_isDeferred hdeferred
          simp only [settles_deferredCoercion_iff, settledType?, Option.isSome_iff_exists, children,
            List.forall₂_cons_left_iff, List.forall₂_nil_left_iff]
          constructor
          · rintro ⟨_, settled, hsettled, ty, hslot, -⟩
            exact ⟨⟨ty, hslot⟩, [settled], settled, [], hsettled, rfl, rfl⟩
          · rintro ⟨⟨ty, hslot⟩, _, settled, _, hsettled, -, -⟩
            exact ⟨_, settled, hsettled, ty, hslot, rfl⟩

/-- Nothing is left to do for an expression all of whose types are fixed. -/
theorem settles_self {e : Expr} (hnodes : ∀ node ∈ e.nodes, node.IsSettled table) :
    e.Settles table e := by
  induction e using Expr.induct with
  | hstep e ih =>
      rw [nodes_eq, List.forall_mem_cons] at hnodes
      obtain ⟨hself, hbelow⟩ := hnodes
      obtain ⟨ty, hty, htypeIn⟩ := hself.ty
      have hparts : List.Forall₂ (Settles table) e.children e.children :=
        List.forall₂_same.mpr fun part hpart => ih part hpart fun node hnode =>
          hbelow node (mem_nodesAll.mpr ⟨part, hpart, hnode⟩)
      refine (settles_iff_of_plain hself.plain).mpr ⟨e.children, hparts, ty, htypeIn, ?_⟩
      rw [withChildren_children, hself.withTy htypeIn]

end Expr

/-! ## Functions -/

namespace FunctionDef

variable {table : SymbolTable}

/-- The expressions of a function that are part of no other expression: those of its body at every
depth and the value that it returns after a failure. -/
def roots (func : FunctionDef) : List Expr :=
  func.statements.flatMap Stmt.exprs ++ func.failureExpr.toList

/-- The expressions that fixing types reaches. -/
def reached (func : FunctionDef) : List Expr := Expr.nodesAll func.roots

/-- What becomes of a function when types are fixed: its expressions are settled where they stand,
and nothing else changes. -/
structure Settles (table : SymbolTable) (func fixed : FunctionDef) : Prop where
  body : List.Forall₂ (Stmt.Rewritten (Expr.Settles table)) func.body fixed.body
  failure : Option.Rel (fun ret fixed => Option.Rel (Expr.Settles table) ret.value fixed.value)
    func.errorReturn fixed.errorReturn
  rest : fixed = { func with body := fixed.body, errorReturn := fixed.errorReturn }

/-- Fixing types makes of a function what it should. -/
theorem fixTypes_eq_ok_iff {func fixed : FunctionDef} :
    func.fixTypes table = .ok fixed ↔ func.Settles table fixed := by
  have hbody (result : List Stmt) : Stmt.fixTypes table func.body = .ok result ↔
      List.Forall₂ (Stmt.Rewritten (Expr.Settles table)) func.body result :=
    rebuildBodyM_eq_ok_iff func.body fun _ _ => Expr.fixTypes_eq_ok_iff
  obtain ⟨name, args, body, span, errorReturn, temps⟩ := func
  obtain ⟨name', args', body', span', errorReturn', temps'⟩ := fixed
  simp only [fixTypes, bind_eq_ok, hbody]
  constructor
  · rintro ⟨rebuilt, hrebuilt, hrest⟩
    split at hrest
    next value =>
      simp only [bind_eq_ok, pure_eq_ok, Expr.fixTypes_eq_ok_iff] at hrest
      obtain ⟨settled, hsettled, heq⟩ := hrest
      cases heq
      exact ⟨hrebuilt, .some (.some hsettled), rfl⟩
    next hnothing =>
      cases pure_eq_ok.mp hrest
      refine ⟨hrebuilt, ?_, rfl⟩
      rcases errorReturn with _ | ⟨_ | value⟩
      · exact .none
      · exact .some .none
      · exact (hnothing value rfl).elim
  · rintro ⟨hrebuilt, hfailure, hrest⟩
    cases hrest
    refine ⟨body', hrebuilt, ?_⟩
    cases hfailure with
    | none => rfl
    | @some ret ret' hret =>
        obtain ⟨value⟩ := ret
        obtain ⟨value'⟩ := ret'
        cases hret with
        | none => rfl
        | some hvalue =>
            simp only [bind_eq_ok, pure_eq_ok, Expr.fixTypes_eq_ok_iff]
            exact ⟨_, hvalue, rfl⟩

theorem Settles.roots {func fixed : FunctionDef} (hsettles : func.Settles table fixed) :
    List.Forall₂ (Expr.Settles table) func.roots fixed.roots := by
  refine List.rel_append ?_ ?_
  · exact List.rel_flatMap (rewritten_nestedBody hsettles.body) fun _ _ hshape => hshape.exprs
  · have hfailure := hsettles.failure
    unfold failureExpr
    generalize func.errorReturn = failure, fixed.errorReturn = failure' at hfailure
    cases hfailure with
    | none => exact .nil
    | @some ret ret' hret =>
        obtain ⟨value⟩ := ret
        obtain ⟨value'⟩ := ret'
        cases hret with
        | none => exact .nil
        | some hvalue => exact .cons hvalue .nil

/-- A computation succeeds with a good value. -/
abbrev SucceedsWith (α : Type) (outcome : Except TypeError α) (good : α → Prop) : Prop :=
  ∃ value, outcome = .ok value ∧ good value

theorem judgement_succeedsWith : Judgement SucceedsWith := by
  refine ⟨fun hgood => ⟨_, rfl, hgood⟩, ?_⟩
  rintro α β good last first next ⟨value, hfirst, hgood⟩ hnext
  obtain ⟨result, hresult, hlast⟩ := hnext value hgood
  exact ⟨result, bind_eq_ok.mpr ⟨value, hfirst, hresult⟩, hlast⟩

/-- Something becomes of a function if something becomes of each of its expressions. -/
theorem exists_settles_iff {func : FunctionDef} :
    (∃ fixed, func.Settles table fixed) ↔ ∀ e ∈ func.roots, ∃ fixed, e.Settles table fixed := by
  rw [← exists_forall₂_iff]
  refine ⟨fun ⟨fixed, hsettles⟩ => ⟨fixed.roots, hsettles.roots⟩, fun hroots => ?_⟩
  obtain ⟨hexprs, hfailure⟩ := List.forall_mem_append.mp (exists_forall₂_iff.mp hroots)
  obtain ⟨body, hbody, -⟩ : SucceedsWith _ (Stmt.fixTypes table func.body)
      (Stmt.Becomes (fun _ => True) func.body) := by
    refine @Judgement.rebuildBody _ _ _ _ (fun _ _ => True) _ (fun _ => True)
      judgement_succeedsWith _ ?_ ?_
    · intro stmt hstmt e he
      obtain ⟨fixed, hfixed⟩ := hexprs e (List.mem_flatMap.mpr ⟨stmt, hstmt, he⟩)
      exact ⟨fixed, Expr.fixTypes_eq_ok_iff.mpr hfixed, trivial⟩
    · exact fun _ _ rebuilt _ _ => ⟨[rebuilt], rfl, fun _ _ => trivial⟩
  suffices hfix : ∃ fixed, func.fixTypes table = .ok fixed by
    obtain ⟨fixed, hfix⟩ := hfix
    exact ⟨fixed, fixTypes_eq_ok_iff.mp hfix⟩
  simp only [fixTypes, bind_eq_ok, hbody, Except.ok.injEq, exists_eq_left']
  split
  next value hvalue =>
    have hmem : value ∈ func.failureExpr.toList := by simp [failureExpr, hvalue]
    obtain ⟨settled, hsettled⟩ := hfailure value hmem
    exact ⟨_, bind_eq_ok.mpr ⟨settled, Expr.fixTypes_eq_ok_iff.mpr hsettled, rfl⟩⟩
  next => exact ⟨_, rfl⟩

/-- Nothing is left to do for a function all of whose types are fixed. -/
theorem settles_self {func : FunctionDef} (hreached : ∀ node ∈ func.reached, node.IsSettled table) :
    func.Settles table func := by
  have hroots : ∀ e ∈ func.roots, e.Settles table e := fun e he =>
    Expr.settles_self fun node hnode => hreached node (Expr.mem_nodesAll.mpr ⟨e, he, hnode⟩)
  obtain ⟨hexprs, hfailure⟩ := List.forall_mem_append.mp hroots
  refine ⟨?_, ?_, rfl⟩
  · exact rewrittenBody_self fun stmt hstmt e he =>
      hexprs e (List.mem_flatMap.mpr ⟨stmt, hstmt, he⟩)
  · unfold failureExpr at hfailure
    generalize func.errorReturn = failure at hfailure ⊢
    rcases failure with _ | ⟨_ | value⟩
    · exact .none
    · exact .some .none
    · exact .some (.some (hfailure value List.mem_cons_self))

/-- Fixing the types of a function succeeds exactly if every expression that is reached has a type
to fix, that of its slot for a conversion that waits and that of its binding for any other
expression. Then it settles each expression where it stands and changes nothing else, every type in
the result is the one that the binding has, and fixing the types once more changes nothing. -/
theorem fixTypes_exact (table : SymbolTable) (func : FunctionDef) :
    ((∃ fixed, func.fixTypes table = .ok fixed) ↔
        ∀ node ∈ func.reached, (node.settledType? table).isSome) ∧
      ∀ fixed, func.fixTypes table = .ok fixed →
        func.Settles table fixed ∧ (∀ node ∈ fixed.reached, node.IsSettled table) ∧
          fixed.fixTypes table = .ok fixed := by
  constructor
  · simp only [fixTypes_eq_ok_iff, exists_settles_iff, Expr.exists_settles_iff]
    constructor
    · intro hroots node hnode
      obtain ⟨e, he, hnode⟩ := Expr.mem_nodesAll.mp hnode
      exact hroots e he node hnode
    · exact fun hreached e he node hnode =>
        hreached node (Expr.mem_nodesAll.mpr ⟨e, he, hnode⟩)
  · intro fixed hfix
    have hsettles := fixTypes_eq_ok_iff.mp hfix
    have hsettled : ∀ node ∈ fixed.reached, node.IsSettled table := by
      intro node hnode
      obtain ⟨e, he, hnode⟩ := Expr.mem_nodesAll.mp hnode
      exact forall_of_forall₂ (fun _ _ _ hexpr => hexpr.isSettled) hsettles.roots e he node hnode
    exact ⟨hsettles, hsettled, fixTypes_eq_ok_iff.mpr (settles_self hsettled)⟩

/-- A number that is stored through two bindings, in the body and after a failure. The inner
conversions are needed and the outer ones are not. -/
def storedTwice : FunctionDef where
  name := "stored"
  args := []
  body := [.ret {} (some (.deferredCoercion {} (.deferredCoercion {}
    (.const (.typed ⟨8, 9⟩ .int64) (.int 1)) ⟨0⟩) ⟨1⟩))]
  errorReturn := some ⟨some (.deferredCoercion {} (.deferredCoercion {}
    (.const (.typed {} .int64) (.int 0)) ⟨0⟩) ⟨1⟩)⟩

theorem fixTypes_exact_storedTwice :
    let table : SymbolTable := ⟨[.localNamed "x" (some .float64), .typed .float64], some ⟨1⟩⟩
    (∀ node ∈ storedTwice.reached, (node.settledType? table).isSome) ∧
      ∃ fixed, storedTwice.fixTypes table = .ok fixed ∧ storedTwice.Settles table fixed ∧
        (∀ node ∈ fixed.reached, node.IsSettled table) ∧ fixed.fixTypes table = .ok fixed ∧
        fixed.body = [.ret {} (some (.coercion (.annotated ⟨8, 9⟩ .float64)
          (.const (.annotated ⟨8, 9⟩ .int64) (.int 1)) .float64))] := by
  intro table
  have htypes : ∀ node ∈ storedTwice.reached, (node.settledType? table).isSome := by
    decide
  obtain ⟨fixed, hfix⟩ := (fixTypes_exact table storedTwice).1.mpr htypes
  obtain ⟨hsettles, hsettled, hagain⟩ := (fixTypes_exact table storedTwice).2 fixed hfix
  refine ⟨htypes, fixed, hfix, hsettles, hsettled, hagain, ?_⟩
  have hvalue := Except.ok.inj hfix
  rw [← hvalue]
  rfl

end FunctionDef

end KernelFront
