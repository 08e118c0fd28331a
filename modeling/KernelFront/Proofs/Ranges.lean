import KernelFront.Proofs.Counting
import KernelFront.Proofs.Inference.Ranges
import KernelFront.Proofs.Packing
import KernelFront.Proofs.TypeSetting
import Mathlib.Algebra.Order.Ring.Int

/-! # Ranges of integer constants

The passes after inference make few integer constants: a loop over an array counts from zero in
steps of one, the call that packs a tuple is told how many elements there are, and the call that
prints is told how. All of them, and those of inference, are in the ranges of their types, unless
the type was chosen before the value: that is so for the index type, and for the value that stands
for a failure.
-/

namespace KernelFront

open Inference (Throughout throughout_cons throughout_append throughout_nodesAll throughout_node
  throughout_converted Allows Carrying)

variable {fits : Ty → Int → Prop} {table : SymbolTable} {indexType : Ty} {span : Span} {e : Expr}

/-- The integer constants among some expressions with fixed types fit them. -/
abbrev Fitting (fits : Ty → Int → Prop) (nodes : List Expr) : Prop :=
  Throughout (Expr.Carries fits Expr.ty) nodes

/-- A constant has no parts, and a tuple keeps as many elements as it has. -/
theorem Expr.Carries.withChildren {tyOf : Expr → Option Ty} {parts : List Expr}
    (he : e.Carries fits tyOf) (hlength : parts.length = e.children.length) :
    (e.withChildren parts).Carries fits tyOf := by
  cases e with
  | const => exact he
  | tuple =>
      simp only [Expr.withChildren, Expr.Carries, hlength]
      exact he
  | _ =>
      unfold Expr.withChildren
      split <;> trivial

/-! ## Fixing types -/

theorem Expr.typeIn?_of_ownTy {ty : Ty} (hown : e.ownTy? = some ty) :
    e.typeIn? table = some ty := by
  unfold ownTy? at hown
  split at hown
  next var hbinding =>
    unfold typeIn? boundVar?
    rw [hbinding]
    exact hown
  next => cases hown

/-- The type of a constant's own binding is fixed on it. -/
theorem carries_withTy {ty : Ty} {parts : List Expr} (he : e.Carries fits Expr.ownTy?)
    (hlength : parts.length = e.children.length) (hty : e.typeIn? table = some ty) :
    ((e.withChildren parts).withTy ty).Carries fits Expr.ty := by
  have hsame := he.withChildren hlength
  have hty : (e.withChildren parts).typeIn? table = some ty := by simpa using hty
  cases hrebuilt : e.withChildren parts with
  | const note value =>
      rw [hrebuilt] at hsame hty
      cases value with
      | int value =>
          obtain ⟨own, hown, hfits⟩ := hsame
          obtain rfl := Option.some.inj ((Expr.typeIn?_of_ownTy hown).symm.trans hty)
          exact ⟨own, rfl, hfits⟩
      | _ => trivial
  | tuple =>
      rw [hrebuilt] at hsame
      exact hsame
  | _ => trivial

theorem fitting_settles {fixed : Expr} (he : Carrying fits e.nodes)
    (hsettles : e.Settles table fixed) : Fitting fits fixed.nodes := by
  induction e using Expr.induct generalizing fixed with
  | hstep e ih =>
      rw [Expr.nodes_eq] at he
      obtain ⟨hself, hbelow⟩ := throughout_cons.mp he
      have hbelow := throughout_nodesAll.mp hbelow
      cases hdeferred : e.isDeferred with
      | false =>
          obtain ⟨parts, hparts, ty, hty, rfl⟩ := (Expr.settles_iff_of_plain hdeferred).mp hsettles
          have hlength := hparts.length_eq.symm
          refine throughout_node (carries_withTy hself hlength hty) (throughout_nodesAll.mpr ?_)
          rw [Expr.withTy, Expr.children_withNote, Expr.children_withChildren hlength]
          exact forall_of_forall₂ (fun part hpart _ => ih part hpart (hbelow part hpart)) hparts
      | true =>
          obtain ⟨note, operand, slot, rfl⟩ := Expr.eq_deferredCoercion_of_isDeferred hdeferred
          obtain ⟨settled, hoperand, ty, -, rfl⟩ :=
            Expr.settles_deferredCoercion_iff.mp hsettles
          have hmem := List.mem_singleton_self operand
          exact throughout_converted (fun _ _ _ => trivial) ty
            (ih operand hmem (hbelow operand hmem) hoperand)

/-! ## Counting loops -/

namespace Loops

variable {target iter array : Expr} {body orelse lowered : List Stmt}
  {before after : List TempDecl}

/-- All that the pass can come to is good. -/
abbrev Ends (α : Type) (pass : Lowering α) (good : α → Prop) : Prop :=
  ∀ before value after, Pass.Reaches pass before value after → good value

theorem judgement_ends : Judgement Ends := by
  refine ⟨fun hgood before value after hreach => ?_,
    fun hfirst hnext before value after hreach => ?_⟩
  · obtain ⟨rfl, rfl⟩ := Pass.reaches_pure.mp hreach
    exact hgood
  · obtain ⟨middle, temps, hmiddle, hreach⟩ := Pass.reaches_bind.mp hreach
    exact hnext middle (hfirst before middle temps hmiddle) temps value after hreach

theorem fitting_int {value : Int} {ty : Ty} (hvalue : fits ty value) :
    Fitting fits (int value ty span).nodes :=
  List.forall_mem_singleton.mpr ⟨ty, rfl, hvalue⟩

theorem fitting_positions (hfits : Allows fits indexType) (harray : Fitting fits array.nodes) :
    Fitting fits (positions table indexType array span).nodes := by
  have hlength : Fitting fits (arrayLength array span).nodes := by
    simp only [arrayLength, Expr.nodes, throughout_cons, throughout_append]
    exact ⟨trivial, ⟨trivial, harray⟩, fitting_int (hfits.literal (by decide))⟩
  simp only [positions, Expr.nodes, throughout_cons, throughout_append]
  exact ⟨trivial, ⟨fitting_int hfits.zero,
    throughout_converted (fun _ _ _ => trivial) indexType hlength⟩, fitting_int hfits.one⟩

theorem fitting_overArray {elem : Ty} {id : TempId} (hfits : Allows fits indexType)
    (htarget : Fitting fits target.nodes) (harray : Fitting fits array.nodes)
    (hbody : ∀ stmt ∈ Stmt.nestedBody body, Fitting fits stmt.nodes)
    (horelse : ∀ stmt ∈ Stmt.nestedBody orelse, Fitting fits stmt.nodes) :
    ∀ stmt ∈ Stmt.nestedBody [overArray table indexType span target array elem body orelse id],
      Fitting fits stmt.nodes := by
  have hcounter : Fitting fits (temp id .load indexType span).nodes :=
    List.forall_mem_singleton.mpr trivial
  have hstore : Fitting fits (storeElement table target array (temp id .load indexType span) elem
      span).nodes := by
    simp only [storeElement, Stmt.nodes, Stmt.exprs, List.singleton_append, Expr.nodesAll,
      List.append_nil, throughout_append]
    refine ⟨htarget, throughout_converted (fun _ _ _ => trivial) _ ?_⟩
    simp only [Expr.nodes, throughout_cons, throughout_append]
    exact ⟨trivial, harray, hcounter⟩
  refine Stmt.forall_nested ?_ (List.forall_mem_cons.mpr
    ⟨List.forall_mem_cons.mpr ⟨hstore, hbody⟩, List.forall_mem_singleton.mpr horelse⟩)
  simp only [overArray, Stmt.nodes, Stmt.exprs, Option.toList_some, Expr.nodesAll, List.append_nil,
    throughout_append]
  exact ⟨htarget, fitting_positions hfits harray, hcounter⟩

/-- The statements that a loop becomes. -/
theorem Counted.fitting
    (hcounted : Counted table indexType span target iter body orelse before lowered after)
    (hfits : Allows fits indexType) (hname : target.asName.isSome)
    (htarget : Fitting fits target.nodes) (hiter : Fitting fits iter.nodes)
    (hbody : ∀ stmt ∈ Stmt.nestedBody body, Fitting fits stmt.nodes)
    (horelse : ∀ stmt ∈ Stmt.nestedBody orelse, Fitting fits stmt.nodes) :
    ∀ stmt ∈ Stmt.nestedBody lowered, Fitting fits stmt.nodes := by
  cases hcounted with
  | range =>
      obtain ⟨name, hname⟩ := Option.isSome_iff_exists.mp hname
      obtain ⟨note, access, rfl⟩ := Expr.eq_name_of_asName hname
      refine Stmt.forall_nested ?_ (List.forall_mem_cons.mpr
        ⟨hbody, List.forall_mem_singleton.mpr horelse⟩)
      simp only [Stmt.nodes, Stmt.exprs, Option.toList_some, Expr.nodesAll, List.append_nil,
        throughout_append]
      exact ⟨htarget, hiter, List.forall_mem_singleton.mpr trivial⟩
  | named => exact fitting_overArray hfits htarget hiter hbody horelse
  | stored =>
      rw [Stmt.nestedBody]
      have htemp (id : TempId) (access : Access) (ty : Ty) (span : Span) :
          Fitting fits (temp id access ty span).nodes := List.forall_mem_singleton.mpr trivial
      refine List.forall_mem_append.mpr ⟨List.forall_mem_singleton.mpr ?_,
        fitting_overArray hfits htarget (htemp _ _ _ _) hbody horelse⟩
      simp only [Stmt.nodes, Stmt.exprs, List.singleton_append, Expr.nodesAll, List.append_nil,
        throughout_append]
      exact ⟨htemp _ _ _ _, hiter⟩

/-- Counting the loops of a body. -/
theorem fitting_lowerBody (hfits : Allows fits indexType)
    (hbody : ∀ stmt ∈ Stmt.nestedBody body, Fitting fits stmt.nodes)
    (hlower : Pass.Reaches (lowerBody table indexType body) before lowered after) :
    ∀ stmt ∈ Stmt.nestedBody lowered, Fitting fits stmt.nodes := by
  have hexprs (stmt : Stmt) (_ : stmt ∈ Stmt.nestedBody body) (e : Expr) (_ : e ∈ stmt.exprs) :
      Ends _ (e.rebuildM (pure : Expr → Lowering Expr)) (Eq e) := by
    rw [Expr.rebuildM_pure]
    exact judgement_ends.pure rfl
  refine (judgement_ends.rebuildBody hexprs (fun stmt hstmt rebuilt hreshaped hbodies => ?_)
    before lowered after hlower).good
  have hrebuilt : ∀ e ∈ rebuilt.exprs, Fitting fits e.nodes := by
    refine hreshaped.forall_exprs fun e he e' hsame => ?_
    exact hsame ▸ throughout_nodesAll.mp (hbody stmt hstmt) e he
  cases rebuilt with
  | forIn span target iter body orelse index =>
      intro before lowered after hlower
      obtain ⟨hname, hcounted⟩ := counted_lowerLoop hlower
      obtain ⟨hinner, hrest⟩ := List.forall_mem_cons.mp hbodies
      exact hcounted.fitting hfits hname (hrebuilt target List.mem_cons_self)
        (hrebuilt iter (by simp [Stmt.exprs])) hinner (hrest _ List.mem_cons_self)
  | _ => exact judgement_ends.pure (Stmt.forall_nested (throughout_nodesAll.mpr hrebuilt) hbodies)

end Loops

/-! ## Boxing -/

namespace Boxing

/-- Whatever an expression becomes in this pass, its integer constants fit. -/
abbrev MakesFitting (fits : Ty → Int → Prop) (step : Step Expr) : Prop :=
  Upholds (fun _ => True) _ step fun boxed => Fitting fits boxed.nodes

theorem fitting_own (he : Fitting fits e.nodes) : MakesFitting fits (own e) := by
  intro before owned after _ hrun
  cases hrun
  exact ⟨trivial, throughout_cons.mpr ⟨trivial, he⟩⟩

theorem fitting_call {function : Host.Function} {args : List Expr}
    (hargs : Fitting fits (Expr.nodesAll args)) : Fitting fits (function.call args span).nodes :=
  throughout_cons.mpr ⟨trivial, hargs⟩

theorem fitting_packTuple {note : Note} {elts : List Expr} {access : Access}
    (he : Fitting fits (Expr.tuple note elts access).nodes) :
    Fitting fits (packTuple span elts).nodes := by
  obtain ⟨hcount, helts⟩ := throughout_cons.mp he
  exact fitting_call (throughout_cons.mpr ⟨⟨.intp, rfl, hcount⟩, helts⟩)

theorem fitting_throughPointer {note : Note} {value selector : Expr} {access : Access}
    (he : Fitting fits (Expr.subscript note value selector access).nodes) :
    Ensures _ (throughPointer note value selector access) fun boxed =>
      Fitting fits boxed.nodes := by
  intro result hthrough
  unfold throughPointer at hthrough
  split at hthrough
  · split at hthrough <;> cases hthrough
    exact he
  · cases hthrough
    simp only [Expr.nodes, throughout_cons, throughout_append] at he ⊢
    exact ⟨trivial, ⟨trivial, he.2.1⟩, he.2.2⟩
  · cases hthrough
    exact he

/-- An expression above parts that are done. -/
theorem fitting_boxExpr (he : Fitting fits e.nodes) : MakesFitting fits (boxExpr table e) := by
  have hkept : MakesFitting fits (pure e) := judgement_upholds.pure he
  cases e with
  | deferredCoercion note node slot =>
      refine upholds_lift fun result hresolve => ?_
      simp only [Expr.resolveDeferred] at hresolve
      split at hresolve <;> cases hresolve
      exact throughout_converted (fun _ _ _ => trivial) _ (throughout_cons.mp he).2
  | tuple note elts access =>
      cases access with
      | load =>
          simp only [boxExpr]
          split
          · exact fitting_own (fitting_packTuple he)
          · exact fitting_own he
      | store => exact hkept
  | dict => exact fitting_own he
  | objectCall => exact fitting_own he
  | nativeCall note symbol signature args =>
      simp only [boxExpr]
      split
      · exact fitting_own he
      · exact hkept
  | subscript => exact upholds_lift (fitting_throughPointer he)
  | _ => exact hkept

/-- An expression at every depth. -/
theorem fitting_rebuildM (he : Fitting fits e.nodes) :
    MakesFitting fits (e.rebuildM (boxExpr table)) := by
  refine @Judgement.rebuildM _ _ _ _ (fun _ boxed => Fitting fits boxed.nodes) _
    judgement_upholds e fun node hnode parts hparts => ?_
  have hlength := hparts.length_eq.symm
  refine fitting_boxExpr (throughout_node ((he node hnode).withChildren hlength) ?_)
  rw [Expr.children_withChildren hlength]
  exact throughout_nodesAll.mpr (forall_of_forall₂ (fun _ _ _ hpart => hpart) hparts)

theorem fitting_printCall (hfits : Allows fits indexType) (he : Fitting fits e.nodes) :
    Fitting fits (printCall span e).nodes := by
  simp only [printCall, Stmt.nodes, Stmt.exprs, Expr.nodesAll, List.append_nil]
  refine fitting_call ?_
  simp only [Expr.nodesAll, List.append_nil, throughout_append]
  exact ⟨he, List.forall_mem_singleton.mpr trivial,
    List.forall_mem_singleton.mpr ⟨.int32, rfl, hfits.flags⟩⟩

/-- Preparing a body. -/
theorem fitting_boxBody {body boxed : List Stmt} {before after : List TempDecl}
    (hfits : Allows fits indexType)
    (hbody : ∀ stmt ∈ Stmt.nestedBody body, Fitting fits stmt.nodes)
    (hbox : (boxBody table body).run before = .ok (boxed, after)) :
    ∀ stmt ∈ Stmt.nestedBody boxed, Fitting fits stmt.nodes := by
  have hexprs (stmt : Stmt) (hstmt : stmt ∈ Stmt.nestedBody body) (e : Expr)
      (he : e ∈ stmt.exprs) : MakesFitting fits (e.rebuildM (boxExpr table)) :=
    fitting_rebuildM (throughout_nodesAll.mp (hbody stmt hstmt) e he)
  refine (judgement_upholds.rebuildBody hexprs
    (fun stmt hstmt rebuilt hreshaped hbodies => ?_) before boxed after trivial hbox).2.good
  have hrebuilt : ∀ e ∈ rebuilt.exprs, Fitting fits e.nodes :=
    hreshaped.forall_exprs fun _ _ _ hboxed => hboxed
  cases rebuilt with
  | print span values dest newline =>
      cases dest with
      | some =>
          intro before boxed after _ hrun
          cases hrun
      | none =>
          refine judgement_upholds.pure ?_
          rw [nestedBody_printCalls]
          exact List.forall_mem_map.mpr fun value hvalue =>
            fitting_printCall hfits (hrebuilt value hvalue)
  | _ =>
      exact judgement_upholds.pure (Stmt.forall_nested (throughout_nodesAll.mpr hrebuilt) hbodies)

end Boxing

/-! ## Functions -/

namespace FunctionDef

variable {func : FunctionDef}

/-- The integer constants of a function with fixed types fit them. -/
abbrev Fitting (fits : Ty → Int → Prop) (func : FunctionDef) : Prop :=
  ∀ stmt ∈ func.statements, KernelFront.Fitting fits stmt.nodes

theorem Settles.fitting {fixed : FunctionDef} (hfunc : Carrying fits func.nodes)
    (hsettles : func.Settles table fixed) : fixed.Fitting fits := by
  refine forall_of_forall₂ (fun stmt hstmt fixed hreshaped => ?_)
    (rewritten_nestedBody hsettles.body)
  refine throughout_nodesAll.mpr (hreshaped.forall_exprs fun e he _ hexpr => ?_)
  exact fitting_settles (throughout_nodesAll.mp (List.forall_mem_flatMap.mp hfunc stmt hstmt) e he)
    hexpr

/-- Compiling a function of the source. -/
theorem fitting_compile {setting : Inference.Setting} {signature : Signature}
    {compiled : Compiled} (hfits : Allows fits setting.options.indexType)
    (hsetting : setting.InRange)
    (hfunc : ∀ stmt ∈ func.statements, Inference.Supplies fits setting.options.indexType stmt)
    (hargs : ∀ ty ∈ signature.args, ∀ s ∈ ty.scalars, s.InRange)
    (hcompile : Pass.SucceedsWith Resolution.InRange (func.compile setting signature) compiled) :
    compiled.func.Fitting fits := by
  obtain ⟨_, _, hcompile⟩ := Pass.exists_of_succeedsWith_bind hcompile
  obtain ⟨inferred, hinfer, hcompile⟩ := Pass.exists_of_succeedsWith_bind hcompile
  have hinferred := Inference.carrying_inferFunction hsetting hfits hfunc hargs hinfer
  have hrest := hcompile.succeeds
  simp only [Pass.succeeds_bind, Pass.succeeds_pure] at hrest
  obtain ⟨typed, htyped, counted, hcounted, boxed, hboxed, _, _, rfl⟩ := hrest
  have htyped : typed.Fitting fits := by
    simp only [FunctionDef.typed, Pass.succeeds_bind, Pass.succeeds_ofExcept,
      Pass.succeeds_pure] at htyped
    obtain ⟨_, hfix, _, _, rfl⟩ := htyped
    exact (fixTypes_eq_ok_iff.mp hfix).fitting hinferred
  have hcounted : counted.Fitting fits := by
    simp only [FunctionDef.counted, Pass.succeeds_bind, Pass.succeeds_pure] at hcounted
    obtain ⟨⟨body, temps⟩, hlower, _, _, rfl⟩ := hcounted
    exact Loops.fitting_lowerBody hfits htyped hlower
  simp only [FunctionDef.boxed, Pass.succeeds_bind, Pass.succeeds_ofExcept, Pass.succeeds_pure,
    box, Inference.bind_eq_ok, Inference.pure_eq_ok, Prod.exists] at hboxed
  obtain ⟨_, ⟨body, temps, hbox, rfl⟩, _, _, rfl⟩ := hboxed
  exact Boxing.fitting_boxBody hfits hcounted hbox

end FunctionDef

/-! ## What a backend relies on -/

/-- The value is in the range of the type, if that is an integer type. -/
def Ty.Represents (ty : Ty) (value : Int) : Prop :=
  match ty with
  | .int true bits => -(2 ^ bits) ≤ 2 * value ∧ 2 * value < 2 ^ bits
  | .int false bits => 0 ≤ value ∧ value < 2 ^ bits
  | _ => True

instance (ty : Ty) (value : Int) : Decidable (ty.Represents value) :=
  match ty with
  | .int true _ | .int false _ => inferInstanceAs (Decidable (_ ∧ _))
  | .bool | .float _ | .complex _ | .pointer _ | .array _ _ | .carray _ _ | .tuple _ _
  | .list _ _ | .range | .slice | .ellipsis | .newAxis | .object | .void | .module _ _
  | .moduleAttribute _ _ _ | .dtype _ | .builtin _ | .global _ | .function _ _ => isTrue trivial

theorem Ty.represents_zero (ty : Ty) : ty.Represents 0 := by
  have hpow (bits : Nat) : (0 : Int) < 2 ^ bits := Int.pow_pos (by decide)
  unfold Represents
  split
  next bits => have := hpow bits; omega
  next bits => exact ⟨Int.le_refl 0, hpow bits⟩
  next => trivial

namespace Expr

/-- The value of an integer constant. -/
def intValue? : Expr → Option Int
  | .const _ (.int value) => some value
  | _ => none

theorem eq_const_of_intValue? {e : Expr} {value : Int} (hvalue : e.intValue? = some value) :
    ∃ note, e = .const note (.int value) := by
  unfold intValue? at hvalue
  split at hvalue
  · cases hvalue
    exact ⟨_, rfl⟩
  · cases hvalue

/-- If this is an integer constant, its value is in the range of its type. -/
def IsRepresentable (e : Expr) : Prop :=
  ∀ value ∈ e.intValue?, ∀ ty ∈ e.ty, ty.Represents value

instance : DecidablePred IsRepresentable := fun e =>
  inferInstanceAs (Decidable (∀ value ∈ e.intValue?, ∀ ty ∈ e.ty, _))

/-- A constant that is given the index type whatever its width: the step of a range, or the position
of an element that some statement of the function unpacks. -/
def IsIndexOf (index : Ty) (func : FunctionDef) (e : Expr) : Prop :=
  e.ty = some index ∧ ∃ value ∈ e.intValue?,
    value = 1 ∨ ∃ stmt ∈ func.statements, 0 ≤ value ∧ value < stmt.places.length

end Expr

/-- What is known of the value of an integer constant and its type. -/
abbrev FunctionDef.Admits (func : FunctionDef) (index ty : Ty) (value : Int) : Prop :=
  ty.Represents value ∨
    ty = index ∧ (value = 1 ∨ ∃ stmt ∈ func.statements, 0 ≤ value ∧ value < stmt.places.length)

theorem FunctionDef.allows_admits (func : FunctionDef) (index : Ty) :
    Allows (func.Admits index) index where
  literal hvalue := by
    obtain ⟨hleast, hgreatest⟩ := hvalue
    exact .inl ⟨by omega, by omega⟩
  zero := .inl index.represents_zero
  one := .inr ⟨rfl, .inl rfl⟩
  flags := .inl (by decide)

theorem FunctionDef.supplies_admits {func : FunctionDef} {index : Ty} (hsource : func.IsSource)
    (hfunc : ∀ node ∈ func.nodes, node.InRange) :
    ∀ stmt ∈ func.statements, Inference.Supplies (func.Admits index) index stmt := by
  refine fun stmt hstmt => ⟨fun e he node hnode => ?_, fun position hposition => ?_, ?_⟩
  · exact hfunc node (List.mem_flatMap.mpr
      ⟨stmt, hstmt, Expr.mem_nodesAll.mpr ⟨e, he, hnode⟩⟩)
  · exact .inr ⟨rfl, .inr ⟨stmt, hstmt, Int.natCast_nonneg _, Int.ofNat_lt.mpr hposition⟩⟩
  · exact (hsource.statements stmt hstmt).uncounted

/-- A value of so many bits is below exactly the powers of two beyond. -/
theorem lt_two_pow_iff {value : Int} {width : Nat} (hleast : 2 ^ width ≤ value)
    (hless : value < 2 ^ (width + 1)) (bits : Nat) : value < 2 ^ bits ↔ width < bits := by
  constructor
  · intro hvalue
    by_contra hbits
    have hpow : (2 : Int) ^ bits ≤ 2 ^ width :=
      pow_le_pow_right₀ (by decide) (Nat.le_of_not_lt hbits)
    omega
  · intro hbits
    have hpow : (2 : Int) ^ (width + 1) ≤ 2 ^ bits := pow_le_pow_right₀ (by decide) hbits
    omega

theorem Boxing.represents_failureMark (signed : Bool) (bits : Nat) :
    (Ty.int signed bits).Represents failureMark ↔ (if signed then 37 else 36) ≤ bits := by
  have hpow : (0 : Int) < 2 ^ bits := Int.pow_pos (by decide)
  cases signed with
  | true =>
      have hmark := lt_two_pow_iff (by decide : 2 ^ 36 ≤ 2 * failureMark) (by decide) bits
      refine ⟨fun hrange => hmark.mp hrange.2, fun hbits => ⟨?_, hmark.mpr hbits⟩⟩
      have : 0 ≤ failureMark := by decide
      omega
  | false =>
      have hmark := lt_two_pow_iff (by decide : 2 ^ 35 ≤ failureMark) (by decide) bits
      exact ⟨fun hrange => hmark.mp hrange.2, fun hbits => ⟨by decide, hmark.mpr hbits⟩⟩

/-- The value that stands for a failure is in range exactly if the result is no integer or has an
integer type that is wide enough. -/
theorem Boxing.isRepresentable_failureValue {ret : Ty} {span : Span} {value : Expr}
    (hvalue : failureValue ret span = some value) :
    (∀ node ∈ value.nodes, node.IsRepresentable) ↔
      ∀ signed bits, ret = .int signed bits → (if signed then 37 else 36) ≤ bits := by
  cases ret with
  | int signed bits =>
      cases hvalue
      simp [Expr.nodes, Expr.IsRepresentable, Expr.intValue?, Expr.ty, Expr.note, Note.annotated,
        represents_failureMark]
  | object | array | float | complex =>
      cases hvalue
      simp [Expr.nodes, Expr.IsRepresentable, Expr.intValue?, Expr.ty, Expr.note, Note.annotated,
        Ty.Represents]
  | _ => cases hvalue

namespace FunctionDef

variable {setting : Inference.Setting} {func : FunctionDef} {signature : Signature}
  {compiled : Compiled}

/-- The integer constants of a compiled function are in the ranges of their types, except that an
index type may be too narrow for a step or a position. The value that stands for a failure is the
same for all integer types, so it is in range exactly if the type of the result is wide enough. The
numbers that the function is compiled from fit the fields that hold them. -/
theorem representable_compile (hsource : func.IsSource) (hfunc : ∀ node ∈ func.nodes, node.InRange)
    (hsetting : setting.InRange) (hargs : ∀ ty ∈ signature.args, ∀ s ∈ ty.scalars, s.InRange)
    (hcompile : Pass.SucceedsWith Resolution.InRange (func.compile setting signature) compiled) :
    (∀ node ∈ compiled.func.nodes,
        node.IsRepresentable ∨ node.IsIndexOf setting.options.indexType func) ∧
      compiled.func.failureExpr =
        Boxing.failureValue compiled.signature.ret compiled.func.span ∧
      ∀ value ∈ compiled.func.failureExpr, (∀ node ∈ value.nodes, node.IsRepresentable) ↔
        ∀ signed bits, compiled.signature.ret = .int signed bits →
          (if signed then 37 else 36) ≤ bits := by
  have hfailure := (isDone_of_isSource hsource hcompile.succeeds).failureExpr
  refine ⟨fun node hnode => ?_, hfailure, fun value hvalue =>
    Boxing.isRepresentable_failureValue (hfailure.symm.trans hvalue)⟩
  have hfitting := fitting_compile (func.allows_admits _) hsetting (supplies_admits hsource hfunc)
    hargs hcompile
  have hcarries := List.forall_mem_flatMap.mpr hfitting node hnode
  cases hvalue : node.intValue? with
  | none => exact .inl (by simp [Expr.IsRepresentable, hvalue])
  | some value =>
      obtain ⟨note, rfl⟩ := Expr.eq_const_of_intValue? hvalue
      obtain ⟨ty, hty, hadmits⟩ := hcarries
      rcases hadmits with hrange | ⟨rfl, hindex⟩
      · refine .inl ?_
        rintro _ ⟨⟩ other hother
        obtain rfl := Option.some.inj (hty.symm.trans hother)
        exact hrange
      · exact .inr ⟨hty, value, rfl, hindex⟩

end FunctionDef

/-- `x, …, x = ys.shape; return n`, with so many targets. -/
def measuring (targets : Nat) : FunctionDef :=
  open Builder in
  function "measuring" ["ys", "n"]
    [assign (tupleStore (List.replicate targets (store "x"))) (attr (load "ys") "shape"),
      ret (some (load "n"))]

theorem isSource_measuring (targets : Nat) : (measuring targets).IsSource := by
  refine ⟨List.forall_mem_cons.mpr ⟨⟨List.forall_mem_singleton.mpr (.tuple ?_), by decide⟩,
    List.forall_mem_singleton.mpr (List.forall_mem_singleton.mpr (by decide))⟩, rfl⟩
  exact fun target htarget => List.eq_of_mem_replicate htarget ▸ .name

/-- Positions are counted in so many bits. -/
def narrowIndices (bits : Nat) : Inference.Setting :=
  { globalsOnly with options := { indexType := .int true bits } }

theorem representable_compile_measuring : ∃ compiled,
    (measuring 3).IsSource ∧ (∀ node ∈ (measuring 3).nodes, node.InRange) ∧
    Pass.SucceedsWith Resolution.InRange ((measuring 3).compile (narrowIndices 8)
      { args := [.strided .float64 3, .int32] }) compiled ∧
    compiled.signature.ret = .int32 ∧
    (∀ node ∈ compiled.func.nodes, node.IsRepresentable ∨ node.IsIndexOf .int8 (measuring 3)) ∧
    compiled.func.failureExpr =
      Boxing.failureValue compiled.signature.ret compiled.func.span ∧
    ∀ value ∈ compiled.func.failureExpr, (∀ node ∈ value.nodes, node.IsRepresentable) ↔
      ∀ signed bits, compiled.signature.ret = .int signed bits →
        (if signed then 37 else 36) ≤ bits := by
  have hsetting : (narrowIndices 8).InRange := by
    refine ⟨by decide, by decide, by decide, fun hlookup => ?_, fun hattr => ?_⟩
    · cases hlookup
    · cases hattr
  have hnodes : ∀ node ∈ (measuring 3).nodes, node.InRange := by decide +kernel
  obtain ⟨compiled, hcompile, hret⟩ : ∃ compiled,
      Pass.SucceedsWith Resolution.InRange ((measuring 3).compile (narrowIndices 8)
        { args := [.strided .float64 3, .int32] }) compiled ∧
      decide (compiled.signature.ret = .int32) = true :=
    Pass.exists_succeedsWith (fun _ _ => .host) (fun _ _ => trivial) (by decide +kernel)
  exact ⟨compiled, isSource_measuring 3, hnodes, hcompile, of_decide_eq_true hret,
    FunctionDef.representable_compile (isSource_measuring 3) hnodes hsetting (by decide) hcompile⟩

/-- For eight bits the last of 129 positions is out of range, and for a single bit the step of a
range. The value that stands for a failure is out of range for 32 bits. -/
theorem narrow_not_representable :
    ((measuring 129).IsSource ∧ (∀ node ∈ (measuring 129).nodes, node.InRange) ∧ ∃ compiled,
      Pass.Succeeds ((measuring 129).compile (narrowIndices 8)
        { args := [.strided .float64 129, .int32] }) compiled ∧
      (∃ node ∈ compiled.func.nodes, node.intValue? = some 128 ∧ ¬ node.IsRepresentable) ∧
      ∃ value ∈ compiled.func.failureExpr, ¬ value.IsRepresentable) ∧
    (wrapping.IsSource ∧ (∀ node ∈ wrapping.nodes, node.InRange) ∧ ∃ compiled,
      Pass.Succeeds (wrapping.compile (narrowIndices 1)
        { args := [.object, .strided .float64 1] }) compiled ∧
      ∃ node ∈ compiled.func.nodes, node.intValue? = some 1 ∧ ¬ node.IsRepresentable) := by
  constructor
  · obtain ⟨compiled, hcompile, htest⟩ : ∃ compiled,
        Pass.Succeeds ((measuring 129).compile (narrowIndices 8)
          { args := [.strided .float64 129, .int32] }) compiled ∧
        decide ((∃ node ∈ compiled.func.nodes, node.intValue? = some 128 ∧
            ¬ node.IsRepresentable) ∧
          ∃ value ∈ compiled.func.failureExpr, ¬ value.IsRepresentable) = true :=
      Pass.exists_succeeds (fun _ _ => .host) (by decide +kernel)
    exact ⟨isSource_measuring 129, by decide +kernel, compiled, hcompile, of_decide_eq_true htest⟩
  · obtain ⟨compiled, hcompile, htest⟩ : ∃ compiled,
        Pass.Succeeds (wrapping.compile (narrowIndices 1)
          { args := [.object, .strided .float64 1] }) compiled ∧
        decide (∃ node ∈ compiled.func.nodes, node.intValue? = some 1 ∧
          ¬ node.IsRepresentable) = true :=
      Pass.exists_succeeds (fun _ _ => .host) (by decide +kernel)
    exact ⟨by decide +kernel, by decide +kernel, compiled, hcompile, of_decide_eq_true htest⟩

end KernelFront
