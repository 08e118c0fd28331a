import KernelFront.Proofs.Format.Scalars
import KernelFront.Proofs.Vocabulary

/-! # The doubles of a tree

A double enters a tree with a constant. From there it can get into types, since the type of a
display records the constants that it holds, and with types into bindings, notes and signatures. A
property of doubles that all of them have is kept by all that is done to types: the type of a
constant, the parts of a type, promotion.
-/

namespace KernelFront

/-- All doubles among the numbers have the property. -/
def DoublesIn (p : Binary64 → Prop) (scalars : List Scalar) : Prop :=
  ∀ value, .double value ∈ scalars → p value

section Lists

variable {p : Binary64 → Prop} {scalars first second : List Scalar}

@[simp] theorem doublesIn_nil : DoublesIn p [] := fun _ => nofun

@[simp] theorem doublesIn_double {value : Binary64} :
    DoublesIn p (.double value :: scalars) ↔ p value ∧ DoublesIn p scalars := by
  simp [DoublesIn]

@[simp] theorem doublesIn_int {value : Int} :
    DoublesIn p (.int value :: scalars) ↔ DoublesIn p scalars := by
  simp [DoublesIn]

@[simp] theorem doublesIn_nat {bits value : Nat} :
    DoublesIn p (.nat bits value :: scalars) ↔ DoublesIn p scalars := by
  simp [DoublesIn]

@[simp] theorem doublesIn_append :
    DoublesIn p (first ++ second) ↔ DoublesIn p first ∧ DoublesIn p second := by
  simp only [DoublesIn, List.mem_append, or_imp, forall_and]

@[simp] theorem doublesIn_flatMap {α : Type} {parts : List α} {scalarsOf : α → List Scalar} :
    DoublesIn p (parts.flatMap scalarsOf) ↔ ∀ part ∈ parts, DoublesIn p (scalarsOf part) := by
  simp only [DoublesIn, List.mem_flatMap]
  constructor
  · exact fun hall part hpart value hvalue => hall value ⟨part, hpart, hvalue⟩
  · rintro hall value ⟨part, hpart, hvalue⟩
    exact hall part hpart value hvalue

/-- The doubles among numbers are finite exactly if the numbers are. -/
theorem doublesIn_isFinite :
    DoublesIn (fun value => value.isFinite = true) scalars ↔ ∀ s ∈ scalars, s.IsFinite := by
  constructor
  · intro hfinite s hs
    cases s with
    | double value => exact hfinite value hs
    | _ => trivial
  · exact fun hfinite value hvalue => hfinite _ hvalue

theorem doublesIn_true : DoublesIn (fun _ => True) scalars := fun _ _ => trivial

end Lists

variable {p : Binary64 → Prop}

/-! ## Types -/

namespace Ty

variable {ty base elem a b c : Ty}

@[simp] theorem doublesIn_array {layout : Layout} :
    DoublesIn p (array elem layout).scalars ↔ DoublesIn p elem.scalars := by
  simp only [scalars, doublesIn_nat]

/-- A type and the type one level down have the same doubles. -/
theorem doublesIn_base (hbase : ty.baseType = some base) :
    DoublesIn p ty.scalars ↔ DoublesIn p base.scalars := by
  cases ty <;> cases hbase <;> simp only [scalars, doublesIn_nat]

/-- A display without recorded constants. -/
@[simp] theorem recordedScalars_none : recordedScalars none = [] := rfl

@[simp] theorem doublesIn_recordedScalars {items : List Constant} :
    DoublesIn p (recordedScalars (some items)) ↔ ∀ item ∈ items, DoublesIn p item.scalars := by
  simp only [recordedScalars, Option.toList_some, List.flatMap_singleton, Constant.scalarsAll_eq,
    doublesIn_flatMap]

theorem doublesIn_ofConstant {value : Constant} (hvalue : DoublesIn p value.scalars) :
    DoublesIn p (ofConstant value).scalars := by
  cases value with
  | tuple items =>
      simp only [ofConstant, scalars, doublesIn_nat, doublesIn_recordedScalars]
      simpa only [Constant.scalars, Constant.scalarsAll_eq, doublesIn_flatMap] using hvalue
  | _ => simp [ofConstant, scalars, int64, float64, complex128, cString, int8]

/-- The constants that a display records. -/
theorem doublesIn_item {items : List Constant} {item : Constant} (hty : DoublesIn p ty.scalars)
    (hitems : ty.constantElements = some items) (hitem : item ∈ items) :
    DoublesIn p item.scalars := by
  cases ty <;> cases hitems <;>
    (simp only [scalars, doublesIn_nat, doublesIn_recordedScalars] at hty; exact hty item hitem)

/-! ## Promotion -/

theorem doublesIn_directed (ha : DoublesIn p a.scalars) (hb : DoublesIn p b.scalars)
    (hdirected : a.directed b = some c) : DoublesIn p c.scalars := by
  unfold directed at hdirected
  split at hdirected
  -- The rules with a condition.
  case h_1 | h_2 | h_10 | h_11 =>
    split at hdirected <;> cases hdirected
    simp [scalars, hb]
  -- A pointer keeps its type.
  case h_9 =>
    cases hdirected
    exact ha
  case h_12 => cases hdirected
  -- All other results are widths.
  all_goals
    cases hdirected
    simp [scalars]

theorem doublesIn_promoteFlat (ha : DoublesIn p a.scalars) (hb : DoublesIn p b.scalars)
    (hpromote : a.promoteFlat b = some c) : DoublesIn p c.scalars := by
  unfold promoteFlat at hpromote
  split at hpromote
  · cases hpromote
    exact ha
  · cases hdirected : a.directed b with
    | some found =>
        rw [hdirected] at hpromote
        cases hpromote
        exact doublesIn_directed ha hb hdirected
    | none =>
        rw [hdirected] at hpromote
        exact doublesIn_directed hb ha hpromote

theorem doublesIn_promoteScalar {scalar : Ty} (hscalar : DoublesIn p scalar.scalars)
    (hty : DoublesIn p ty.scalars) (hpromote : promoteScalar scalar ty = some c) :
    DoublesIn p c.scalars := by
  fun_induction promoteScalar scalar ty generalizing c with
  | case1 elem layout ih =>
      obtain ⟨result, hresult, rfl⟩ := Option.map_eq_some_iff.mp hpromote
      exact doublesIn_array.mpr (ih (doublesIn_array.mp hty) hresult)
  | case2 ty hflat => exact doublesIn_promoteFlat hty hscalar hpromote

theorem doublesIn_promote? (ha : DoublesIn p a.scalars) (hb : DoublesIn p b.scalars)
    (hpromote : a.promote? b = some c) : DoublesIn p c.scalars := by
  fun_induction promote? a b generalizing c with
  | case1 x l y m ih =>
      obtain ⟨result, hresult, rfl⟩ := Option.map_eq_some_iff.mp hpromote
      exact doublesIn_array.mpr (ih (doublesIn_array.mp ha) (doublesIn_array.mp hb) hresult)
  | case2 x m y ih =>
      obtain ⟨result, hresult, rfl⟩ := Option.map_eq_some_iff.mp hpromote
      refine (doublesIn_base rfl).mpr (ih ?_ ?_ hresult)
      · exact (doublesIn_base rfl).mp ha
      · exact (doublesIn_base rfl).mp hb
  | case3 => cases hpromote
  | case4 => exact doublesIn_promoteScalar hb ha hpromote
  | case5 => exact doublesIn_promoteFlat ha hb hpromote
  | case6 => exact doublesIn_promoteScalar ha hb hpromote
  | case7 => exact doublesIn_promoteFlat ha hb hpromote
  | case8 => exact doublesIn_promoteFlat ha hb hpromote

end Ty

/-! ## Notes -/

@[simp] theorem doublesIn_span {span : Span} : DoublesIn p span.scalars := by
  simp [Span.scalars]

/-- A note without a fixed type. -/
theorem doublesIn_note_value {span : Span} {var : Variable} (hvar : DoublesIn p var.scalars) :
    DoublesIn p (Note.scalars { span, binding := some (.value var) }) := by
  simpa [Note.scalars, Binding.scalars] using hvar

theorem doublesIn_note_symbol {span : Span} {id : SymbolId} :
    DoublesIn p (Note.scalars { span, binding := some (.symbol id) }) := by
  simp [Note.scalars, Binding.scalars, SymbolId.scalars]

@[simp] theorem doublesIn_typed {span : Span} {ty : Ty} :
    DoublesIn p (Note.typed span ty).scalars ↔ DoublesIn p ty.scalars := by
  simp [Note.typed, Note.scalars, Binding.scalars, Variable.scalars, Variable.typed]

@[simp] theorem doublesIn_annotated {span : Span} {ty : Ty} :
    DoublesIn p (Note.annotated span ty).scalars ↔ DoublesIn p ty.scalars := by
  simp [Note.annotated, Note.scalars, Binding.scalars, Variable.scalars, Variable.typed]

end KernelFront
