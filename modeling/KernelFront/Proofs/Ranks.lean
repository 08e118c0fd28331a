import KernelFront.Proofs.Vocabulary

/-! # Ranks

An array has at least one dimension: one that loses its last dimension is an element and no array
any more. A type is ranked if this holds of every array in it, however deep. The types of constants
are ranked, and what types are made of and promoted to is ranked if they are.
-/

namespace KernelFront

namespace Ty

mutual

/-- The layouts of all arrays in a type. -/
def layouts : Ty → List Layout
  | .array elem layout => layout :: elem.layouts
  | .pointer base | .dtype base | .carray base _ => base.layouts
  | .function args ret => layoutsAll args ++ ret.layouts
  | _ => []

/-- The layouts of all arrays in several types. -/
def layoutsAll : List Ty → List Layout
  | [] => []
  | ty :: tys => ty.layouts ++ layoutsAll tys

end

theorem layoutsAll_eq (tys : List Ty) : layoutsAll tys = tys.flatMap layouts := by
  induction tys with
  | nil => rfl
  | cons ty tys ih => rw [layoutsAll, ih, List.flatMap_cons]

/-- Every array in a type has a dimension. -/
def Ranked (ty : Ty) : Prop := ∀ layout ∈ ty.layouts, 1 ≤ layout.ndim

instance : DecidablePred Ranked := fun ty =>
  inferInstanceAs (Decidable (∀ layout ∈ ty.layouts, 1 ≤ layout.ndim))

variable {ty elem scalar a b c : Ty}

/-- A type without arrays. -/
theorem ranked_of_layouts (hnone : ty.layouts = []) : ty.Ranked := by
  rw [Ranked, hnone]
  exact List.forall_mem_nil _

@[simp] theorem ranked_array {layout : Layout} :
    (array elem layout).Ranked ↔ 1 ≤ layout.ndim ∧ elem.Ranked := by
  simp only [Ranked, layouts, List.forall_mem_cons]

@[simp] theorem ranked_dtype {base : Ty} : (dtype base).Ranked ↔ base.Ranked := Iff.rfl

@[simp] theorem ranked_function {args : List Ty} {ret : Ty} :
    (function args ret).Ranked ↔ (∀ arg ∈ args, arg.Ranked) ∧ ret.Ranked := by
  simp only [Ranked, layouts, layoutsAll_eq, List.forall_mem_append, List.mem_flatMap]
  constructor
  · rintro ⟨hargs, hret⟩
    exact ⟨fun arg harg layout hlayout => hargs layout ⟨arg, harg, hlayout⟩, hret⟩
  · rintro ⟨hargs, hret⟩
    refine ⟨?_, hret⟩
    rintro layout ⟨arg, harg, hlayout⟩
    exact hargs arg harg layout hlayout

/-- What a type is made of is ranked with it. -/
theorem Ranked.base {part : Ty} (hranked : ty.Ranked) (hbase : ty.baseType = some part) :
    part.Ranked := by
  cases ty with
  | array elem layout =>
      cases hbase
      exact (ranked_array.mp hranked).2
  | pointer | dtype | carray =>
      cases hbase
      exact hranked
  | _ => cases hbase

theorem ranked_ofConstant (value : Constant) : (ofConstant value).Ranked := by
  cases value <;> exact ranked_of_layouts rfl

/-! ## Promotion -/

theorem Ranked.directed (ha : a.Ranked) (hb : b.Ranked) (hdirected : a.directed b = some c) :
    c.Ranked := by
  unfold Ty.directed at hdirected
  split at hdirected
  -- A truth value takes the type it meets, and a pointer keeps its own.
  case h_2 =>
    split at hdirected <;> cases hdirected
    exact hb
  case h_9 =>
    cases hdirected
    exact ha
  case h_12 => cases hdirected
  -- All other results are made without arrays.
  all_goals
    first
    | cases hdirected; exact ranked_of_layouts rfl
    | split at hdirected <;> cases hdirected; exact ranked_of_layouts rfl

theorem Ranked.promoteFlat (ha : a.Ranked) (hb : b.Ranked) (hpromote : a.promoteFlat b = some c) :
    c.Ranked := by
  unfold Ty.promoteFlat at hpromote
  split at hpromote
  · cases hpromote
    exact ha
  · cases hdirected : a.directed b with
    | some found =>
        rw [hdirected] at hpromote
        cases hpromote
        exact ha.directed hb hdirected
    | none =>
        rw [hdirected] at hpromote
        exact hb.directed ha hpromote

theorem Ranked.promoteScalar (hty : ty.Ranked) (hscalar : scalar.Ranked)
    (hpromote : Ty.promoteScalar scalar ty = some c) : c.Ranked := by
  fun_induction Ty.promoteScalar scalar ty generalizing c with
  | case1 elem layout ih =>
      obtain ⟨result, hresult, rfl⟩ := Option.map_eq_some_iff.mp hpromote
      obtain ⟨hlayout, helem⟩ := ranked_array.mp hty
      exact ranked_array.mpr ⟨hlayout, ih helem hresult⟩
  | case2 ty hflat => exact hty.promoteFlat hscalar hpromote

/-- Types that are ranked have a ranked common type. -/
theorem Ranked.promote? (ha : a.Ranked) (hb : b.Ranked) (hpromote : a.promote? b = some c) :
    c.Ranked := by
  fun_induction Ty.promote? a b generalizing c with
  | case1 x l y m ih =>
      obtain ⟨result, hresult, rfl⟩ := Option.map_eq_some_iff.mp hpromote
      obtain ⟨hl, hx⟩ := ranked_array.mp ha
      obtain ⟨-, hy⟩ := ranked_array.mp hb
      exact ranked_array.mpr ⟨Nat.le_trans hl (Nat.le_max_left _ _), ih hx hy hresult⟩
  | case2 x m y ih =>
      obtain ⟨result, hresult, rfl⟩ := Option.map_eq_some_iff.mp hpromote
      have hinner : result.Ranked := ih ha hb hresult
      exact hinner
  | case3 => cases hpromote
  | case4 x l b _ hnumeric => exact ha.promoteScalar hb hpromote
  | case5 => exact ha.promoteFlat hb hpromote
  | case6 a y m _ hnumeric => exact hb.promoteScalar ha hpromote
  | case7 => exact ha.promoteFlat hb hpromote
  | case8 => exact ha.promoteFlat hb hpromote

end Ty

end KernelFront
