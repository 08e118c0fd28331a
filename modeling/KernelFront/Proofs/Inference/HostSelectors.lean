import KernelFront.Proofs.Inference.Selectors

/-! # Selectors left to the host

If the compiler cannot tell what a selector of an array selects, the host has to: only at run time
is it known how many axes the selector takes. The rule of the host is that an ellipsis stands for
the axes that the other selectors leave, and that without one these are the axes at the end.

The compiler does not hand over the selectors of the source, but has already written full slices for
an ellipsis, as many as there are if every selector takes one axis. What the host selects with them
is what the source says exactly if that number is right or the ellipsis could as well stand at the
end.
-/

namespace KernelFront.Inference

/-- A list commutes with copies of one element exactly if it consists of copies itself. -/
theorem append_replicate_comm_iff {α : Type} {a : α} {n : Nat} {list : List α} :
    list ++ List.replicate n a = List.replicate n a ++ list ↔ n = 0 ∨ ∀ b ∈ list, b = a := by
  constructor
  · intro hcomm
    rcases n with - | n
    · exact .inl rfl
    refine .inr ?_
    induction list with
    | nil => exact fun b hb => absurd hb List.not_mem_nil
    | cons first rest ih =>
        rw [List.replicate_succ, List.cons_append, List.cons_append, List.cons.injEq] at hcomm
        obtain ⟨rfl, hrest⟩ := hcomm
        -- The first copy behind `rest` is the last one before it.
        have hshift : rest ++ List.replicate (n + 1) first =
            List.replicate (n + 1) first ++ rest := by
          rw [List.replicate_succ, hrest, ← List.replicate_succ, List.replicate_succ',
            List.append_assoc, List.singleton_append]
        exact List.forall_mem_cons.mpr ⟨rfl, ih hshift⟩
  · rintro (rfl | hcopies)
    · rw [List.replicate_zero, List.append_nil, List.nil_append]
    · rw [List.eq_replicate_of_mem hcopies, List.replicate_append_replicate,
        List.replicate_append_replicate, Nat.add_comm]

/-- A selector at run time. -/
structure Evaluated where
  kind : SelectorKind
  expr : Expr
  /-- The number of axes that it takes if its kind does not say so. -/
  axes : Nat

/-- What happens to the axes of an array, one after the other. -/
inductive Reading where
  /-- One axis is taken whole. -/
  | whole
  /-- A selector is applied to a number of axes. -/
  | applied (selector : Expr) (axes : Nat)

namespace Evaluated

variable {ndim fill : Nat} {source before after : List Evaluated} {s : Evaluated}

def isEllipsis (s : Evaluated) : Bool := s.kind = .ellipsis

/-- The axes that a selector takes itself: an ellipsis gets what the others leave. -/
def taken (s : Evaluated) : Nat :=
  match s.kind with
  | .ellipsis | .newAxis => 0
  | .integer | .slice => 1
  | .other => s.axes

/-- What a selector other than an ellipsis says. -/
def reading (s : Evaluated) : Reading :=
  match s.kind, s.expr with
  | .slice, .slice _ none none none => .whole
  | _, e => .applied e s.taken

/-- The selector that takes a whole axis. -/
def full (span : Span) : Evaluated := ⟨.slice, fullSlice span, 1⟩

@[simp] theorem taken_full (span : Span) : (full span).taken = 1 := rfl

@[simp] theorem isEllipsis_full (span : Span) : (full span).isEllipsis = false := rfl

@[simp] theorem reading_full (span : Span) : (full span).reading = .whole := rfl

theorem taken_of_isEllipsis (hs : s.isEllipsis) : s.taken = 0 := by
  have hkind : s.kind = .ellipsis := by simpa [isEllipsis] using hs
  simp only [taken, hkind]

/-! ## The rule of the host -/

/-- The axes that selectors take. -/
def axesOf : List Evaluated → Nat
  | [] => 0
  | s :: rest => s.taken + axesOf rest

/-- The number of ellipses. -/
def ellipses (source : List Evaluated) : Nat := source.countP isEllipsis

/-- What selectors say in their order: the axes that are left, `free`, stand where an ellipsis
stands or, without one, at the end. -/
def readings (free : List Reading) : List Evaluated → List Reading
  | [] => free
  | s :: rest =>
      if s.isEllipsis then free ++ rest.map reading else s.reading :: readings free rest

/-- What the host selects from an array with `ndim` axes. It refuses selectors that take more axes
than there are, and more than one ellipsis. -/
def select? (ndim : Nat) (source : List Evaluated) : Option (List Reading) :=
  if ndim < axesOf source ∨ 1 < ellipses source then none
  else some (readings (List.replicate (ndim - axesOf source) .whole) source)

theorem axesOf_append (before after : List Evaluated) :
    axesOf (before ++ after) = axesOf before + axesOf after := by
  induction before with
  | nil => simp only [List.nil_append, axesOf, Nat.zero_add]
  | cons s rest ih => simp only [List.cons_append, axesOf, ih, Nat.add_assoc]

theorem axesOf_replicate_full (n : Nat) (span : Span) :
    axesOf (List.replicate n (full span)) = n := by
  induction n with
  | zero => rfl
  | succ n ih => simp only [List.replicate_succ, axesOf, taken_full, ih, Nat.add_comm]

theorem ellipses_cons (s : Evaluated) (rest : List Evaluated) :
    ellipses (s :: rest) = ellipses rest + if s.isEllipsis then 1 else 0 := by
  simp only [ellipses, List.countP_cons]

theorem ellipses_cons_eq_zero {rest : List Evaluated} :
    ellipses (s :: rest) = 0 ↔ ¬ s.isEllipsis ∧ ellipses rest = 0 := by
  simp only [ellipses, List.countP_eq_zero, List.forall_mem_cons]

theorem readings_of_no_ellipsis (free : List Reading) (hsource : ellipses source = 0) :
    readings free source = source.map reading ++ free := by
  induction source with
  | nil => rfl
  | cons s rest ih =>
      obtain ⟨hs, hrest⟩ := ellipses_cons_eq_zero.mp hsource
      rw [readings, if_neg hs, ih hrest, List.map_cons, List.cons_append]

theorem readings_of_ellipsis (free : List Reading) (hbefore : ellipses before = 0)
    (hs : s.isEllipsis) :
    readings free (before ++ s :: after) =
      before.map reading ++ (free ++ after.map reading) := by
  induction before with
  | nil => rw [List.nil_append, readings, if_pos hs, List.map_nil, List.nil_append]
  | cons first rest ih =>
      obtain ⟨hfirst, hrest⟩ := ellipses_cons_eq_zero.mp hbefore
      rw [List.cons_append, readings, if_neg hfirst, ih hrest, List.map_cons,
        List.cons_append]

/-! ## What the compiler hands over -/

/-- Write the first ellipsis as `fill` full slices and each further one as a single full slice. -/
def fillOut (fill : Nat) : List Evaluated → List Evaluated
  | [] => []
  | s :: rest =>
      if s.isEllipsis then List.replicate fill (full s.expr.span) ++ fillOut 1 rest
      else s :: fillOut fill rest

/-- These are the selectors that the rule for arrays writes. -/
theorem map_expr_fillOut (fill : Nat) (source : List Evaluated) :
    (fillOut fill source).map expr =
      expandEllipses fill ((source.map kind).zip (source.map expr)) := by
  induction source generalizing fill with
  | nil => rfl
  | cons s rest ih =>
      obtain ⟨kind, e, axes⟩ := s
      cases kind with
      | ellipsis =>
          simp only [fillOut, isEllipsis, decide_true, if_true, List.map_append,
            List.map_replicate, ih, List.map_cons, List.zip_cons_cons, expandEllipses]
          rfl
      | _ =>
          simp only [fillOut, isEllipsis, reduceCtorEq, decide_false, Bool.false_eq_true, if_false,
            ih, List.map_cons, List.zip_cons_cons, expandEllipses]

theorem fillOut_of_no_ellipsis (fill : Nat) (hsource : ellipses source = 0) :
    fillOut fill source = source := by
  induction source with
  | nil => rfl
  | cons s rest ih =>
      obtain ⟨hs, hrest⟩ := ellipses_cons_eq_zero.mp hsource
      rw [fillOut, if_neg hs, ih hrest]

theorem fillOut_of_ellipsis (hbefore : ellipses before = 0) (hs : s.isEllipsis) :
    fillOut fill (before ++ s :: after) =
      before ++ (List.replicate fill (full s.expr.span) ++ fillOut 1 after) := by
  induction before with
  | nil => rw [List.nil_append, fillOut, if_pos hs, List.nil_append]
  | cons first rest ih =>
      obtain ⟨hfirst, hrest⟩ := ellipses_cons_eq_zero.mp hbefore
      rw [List.cons_append, fillOut, if_neg hfirst, ih hrest, List.cons_append]

theorem ellipses_fillOut (fill : Nat) (source : List Evaluated) :
    ellipses (fillOut fill source) = 0 := by
  induction source generalizing fill with
  | nil => rfl
  | cons s rest ih =>
      by_cases hs : s.isEllipsis
      · have hfull : ellipses (List.replicate fill (full s.expr.span)) = 0 := by
          simp [ellipses, List.countP_replicate]
        rw [fillOut, if_pos hs, ellipses, List.countP_append]
        exact congrArg₂ (· + ·) hfull (ih 1)
      · rw [fillOut, if_neg hs, ellipses_cons, ih fill, if_neg hs]

/-- Each further ellipsis takes one axis. -/
theorem axesOf_fillOut_one (source : List Evaluated) :
    axesOf (fillOut 1 source) = axesOf source + ellipses source := by
  induction source with
  | nil => rfl
  | cons s rest ih =>
      by_cases hs : s.isEllipsis
      · rw [fillOut, if_pos hs, axesOf_append, axesOf_replicate_full, ih, axesOf,
          ellipses_cons, if_pos hs, taken_of_isEllipsis hs]
        omega
      · rw [fillOut, if_neg hs, axesOf, ih, axesOf, ellipses_cons, if_neg hs]
        omega

/-- The first ellipsis takes `fill` axes. -/
theorem axesOf_fillOut (hsource : 0 < ellipses source) :
    axesOf (fillOut fill source) + 1 = axesOf source + fill + ellipses source := by
  induction source with
  | nil => exact absurd hsource (Nat.lt_irrefl 0)
  | cons s rest ih =>
      rw [ellipses_cons] at hsource ⊢
      by_cases hs : s.isEllipsis
      · rw [fillOut, if_pos hs, axesOf_append, axesOf_replicate_full, axesOf_fillOut_one,
          axesOf, if_pos hs, taken_of_isEllipsis hs]
        omega
      · rw [if_neg hs] at hsource ⊢
        have hrest := ih (by omega)
        rw [fillOut, if_neg hs, axesOf, axesOf]
        omega

/-! ## When both select the same -/

/-- The selectors after the first ellipsis. -/
def afterEllipsis : List Evaluated → List Evaluated
  | [] => []
  | s :: rest => if s.isEllipsis then rest else afterEllipsis rest

theorem afterEllipsis_append (hbefore : ellipses before = 0) (hs : s.isEllipsis) :
    afterEllipsis (before ++ s :: after) = after := by
  induction before with
  | nil => rw [List.nil_append, afterEllipsis, if_pos hs]
  | cons first rest ih =>
      obtain ⟨hfirst, hrest⟩ := ellipses_cons_eq_zero.mp hbefore
      rw [List.cons_append, afterEllipsis, if_neg hfirst, ih hrest]

/-- When `fill` full slices in place of the ellipsis keep the selection. -/
def KeptBy (fill ndim : Nat) (source : List Evaluated) : Prop :=
  match ellipses source with
  | 0 => True
  -- Both are refused, or the number is right, or the host adds what is missing at the end where it
  -- meets only whole axes.
  | 1 => ndim < axesOf source ∨ axesOf source + fill = ndim ∨
      axesOf source + fill ≤ ndim ∧ ∀ s ∈ afterEllipsis source, s.reading = .whole
  -- The source is refused, so that the selectors handed over have to be.
  | more + 2 => ndim < axesOf source + fill + (more + 1)

/-- Selectors with one ellipsis, apart. -/
theorem exists_ellipsis (hsource : ellipses source = 1) :
    ∃ before s after, source = before ++ s :: after ∧ ellipses before = 0 ∧ s.isEllipsis ∧
      ellipses after = 0 := by
  induction source with
  | nil => exact absurd hsource Nat.zero_ne_one
  | cons first rest ih =>
      rw [ellipses_cons] at hsource
      by_cases hfirst : first.isEllipsis
      · rw [if_pos hfirst] at hsource
        exact ⟨[], first, rest, rfl, rfl, hfirst, by omega⟩
      · rw [if_neg hfirst] at hsource
        obtain ⟨before, s, after, rfl, hbefore, hs, hafter⟩ := ih (by omega)
        exact ⟨first :: before, s, after, rfl,
          ellipses_cons_eq_zero.mpr ⟨hfirst, hbefore⟩, hs, hafter⟩

theorem select?_of_no_ellipsis (hsource : ellipses source = 0) :
    select? ndim source =
      if ndim < axesOf source then none
      else some (source.map reading ++ List.replicate (ndim - axesOf source) .whole) := by
  unfold select?
  rw [readings_of_no_ellipsis _ hsource, hsource]
  simp only [Nat.not_lt_zero, or_false]

/-- One ellipsis: the slices written for it are compared with the axes that it gets. -/
theorem select?_fillOut_iff_of_one (hsource : ellipses source = 1) :
    select? ndim (fillOut fill source) = select? ndim source ↔
      ndim < axesOf source ∨ axesOf source + fill = ndim ∨
        axesOf source + fill ≤ ndim ∧ ∀ s ∈ afterEllipsis source, s.reading = .whole := by
  obtain ⟨before, s, after, hsplit, hbefore, hs, hafter⟩ := exists_ellipsis hsource
  have haxes : axesOf (fillOut fill source) = axesOf source + fill := by
    have := @axesOf_fillOut fill source (by omega)
    omega
  have hlater : afterEllipsis source = after := by
    rw [hsplit, afterEllipsis_append hbefore hs]
  have hhost : (fillOut fill source).map reading =
      before.map reading ++ (List.replicate fill .whole ++ after.map reading) := by
    rw [hsplit, fillOut_of_ellipsis hbefore hs, fillOut_of_no_ellipsis 1 hafter]
    simp only [List.map_append, List.map_replicate, reading_full]
  rw [select?_of_no_ellipsis (ellipses_fillOut fill source), haxes, hhost, hlater, select?]
  have hone : ¬ 1 < ellipses source := by omega
  by_cases hexcess : ndim < axesOf source
  · rw [if_pos (by omega), if_pos (.inl hexcess)]
    simp [hexcess]
  · rw [if_neg (not_or.mpr ⟨hexcess, hone⟩)]
    by_cases hfill : ndim < axesOf source + fill
    · rw [if_pos hfill]
      simp only [reduceCtorEq, false_iff, not_or, not_and]
      exact ⟨hexcess, by omega, fun hfits => absurd hfits (by omega)⟩
    · obtain ⟨missing, rfl⟩ := Nat.le.dest (Nat.not_lt.mp hfill)
      have hfree : axesOf source + fill + missing - axesOf source = fill + missing := by omega
      have hadded : axesOf source + fill + missing - (axesOf source + fill) = missing := by omega
      rw [if_neg hfill, hfree, hadded, hsplit, readings_of_ellipsis _ hbefore hs, ← hsplit,
        Option.some.injEq, ← List.replicate_append_replicate]
      simp only [List.append_assoc, List.append_cancel_left_eq, append_replicate_comm_iff,
        List.forall_mem_map]
      constructor
      · rintro (rfl | hwhole)
        · exact .inr (.inl rfl)
        · exact .inr (.inr ⟨Nat.le_add_right .., hwhole⟩)
      · rintro (hless | hright | ⟨-, hwhole⟩)
        · exact absurd hless hexcess
        · exact .inl (by omega)
        · exact .inr hwhole

/-- What the host selects with full slices in place of the ellipses is what the source says exactly
under this condition. -/
theorem select?_fillOut_iff :
    select? ndim (fillOut fill source) = select? ndim source ↔ KeptBy fill ndim source := by
  unfold KeptBy
  split
  next hnone => rw [fillOut_of_no_ellipsis fill hnone]; exact iff_of_true rfl trivial
  next hone => exact select?_fillOut_iff_of_one hone
  next more hmore =>
    have hseveral : 1 < ellipses source := by omega
    have haxes := @axesOf_fillOut fill source (by omega)
    have hrefused : select? ndim source = none := if_pos (.inr hseveral)
    rw [hrefused, select?_of_no_ellipsis (ellipses_fillOut fill source)]
    split
    next hexcess => exact iff_of_true rfl (by omega)
    next hfits => exact iff_of_false nofun (by omega)

/-- Written slices have the kind of slices, and the other selectors keep theirs. -/
theorem hasKind_fillOut {table : SymbolTable} (hkinds : ∀ s ∈ source, HasKind table s.expr s.kind) :
    ∀ s ∈ fillOut fill source, HasKind table s.expr s.kind := by
  induction source generalizing fill with
  | nil => exact hkinds
  | cons s rest ih =>
      obtain ⟨hfirst, hrest⟩ := List.forall_mem_cons.mp hkinds
      rw [fillOut]
      split
      · refine List.forall_mem_append.mpr ⟨fun other hother => ?_, ih hrest⟩
        rw [List.eq_of_mem_replicate hother]
        exact hasKind_fullSlice table s.expr.span
      · exact List.forall_mem_cons.mpr ⟨hfirst, ih hrest⟩

end Evaluated

open Evaluated SelectorKind

/-! ## The rule for arrays -/

variable {table : SymbolTable} {span : Span} {ndim : Nat} {elem : Ty} {value selector : Expr}
  {access : Access}

theorem forall₂_hasKind_map {source : List Evaluated}
    (hkinds : ∀ s ∈ source, HasKind table s.expr s.kind) :
    List.Forall₂ (HasKind table) (source.map expr) (source.map kind) :=
  List.forall₂_map_left_iff.mpr (List.forall₂_map_right_iff.mpr (List.forall₂_same.mpr hkinds))

/-- A subscript that cannot be taken apart is left to the host as it is. One with a selector that
may take any number of axes is left to it with full slices for its ellipses, as many as there would
be if each selector but a new axis took one axis. Whatever the selectors take at run time, the host
selects what the source says exactly if these slices keep the selection. -/
theorem arraySubscript_left_to_host :
    (selectors? selector = none →
      arraySubscript span elem ndim value selector access table =
        .ok (hostSubscript span value selector access table)) ∧
    ∀ source : List Evaluated, selectors? selector = some (source.map expr) →
      (∀ s ∈ source, HasKind table s.expr s.kind) → (∃ s ∈ source, s.kind = .other) →
      let fill := ndim + 1 - consuming (source.map kind)
      let host := fillOut fill source
      arraySubscript span elem ndim value selector access table =
        .ok (hostSubscript span value
          (.extSlice (.typed ((source.map expr).head?.elim span Expr.span) .object)
            (host.map expr)) access table) ∧
      (∀ s ∈ host, HasKind table s.expr s.kind) ∧
      (select? ndim host = select? ndim source ↔ KeptBy fill ndim source) := by
  constructor
  · intro hselectors
    unfold arraySubscript
    rw [hselectors]
  · intro source hselectors hkinds hother fill host
    refine ⟨?_, hasKind_fillOut hkinds, select?_fillOut_iff⟩
    have hforall := forall₂_hasKind_map hkinds
    have hcount : 0 < (source.map kind).count .other := by
      obtain ⟨s, hs, hkind⟩ := hother
      exact List.count_pos_iff.mpr (hkind ▸ List.mem_map_of_mem hs)
    have hfill :
        ndim + 1 - ((source.map expr).length - (source.map kind).count .newAxis) = fill := by
      have hsource := consuming_add_newAxes (source.map kind)
      have hlength := hforall.length_eq
      omega
    unfold arraySubscript host
    simp only [hselectors, mapM_selectorKind hforall, map_expr_fillOut, ← hfill]
    exact if_pos hcount

/-- The mask of `a[..., m, 0]`, a boolean array. -/
def mask : Expr := .name (.typed ⟨7, 8⟩ (.strided .bool 2)) "m" .load

/-- The selectors of `a[..., m, 0]` when the mask takes some number of axes. -/
def maskedSelectors (axes : Nat) : List Evaluated :=
  [⟨.ellipsis, .ellipsis (.typed ⟨2, 5⟩ .ellipsis), 0⟩, ⟨.other, mask, axes⟩,
    ⟨.integer, literal (.int 0) ⟨10, 11⟩, 1⟩]

theorem hasKind_maskedSelectors (axes : Nat) :
    ∀ s ∈ maskedSelectors axes, HasKind {} s.expr s.kind := by
  simp only [maskedSelectors, List.forall_mem_cons, List.not_mem_nil, false_implies,
    implies_true, and_true]
  exact ⟨rfl, rfl, rfl⟩

/-- A mask with one axis leaves one of three for the ellipsis, and `a[:, m, 0]` is handed over. -/
theorem arraySubscript_left_to_host_masked :
    let a : Expr := .name (.typed ⟨0, 1⟩ (.strided .bool 3)) "a" .load
    let host := [full ⟨2, 5⟩, ⟨.other, mask, 1⟩, ⟨.integer, literal (.int 0) ⟨10, 11⟩, 1⟩]
    arraySubscript ⟨0, 12⟩ .bool 3 a
        (.extSlice (.typed ⟨2, 11⟩ .object) ((maskedSelectors 1).map expr)) .load {} =
      .ok (hostSubscript ⟨0, 12⟩ a (.extSlice (.typed ⟨2, 5⟩ .object) (host.map expr)) .load {}) ∧
    select? 3 host = select? 3 (maskedSelectors 1) := by
  intro a host
  obtain ⟨-, hknown⟩ := @arraySubscript_left_to_host {} ⟨0, 12⟩ 3 .bool a
    (.extSlice (.typed ⟨2, 11⟩ .object) ((maskedSelectors 1).map expr)) .load
  have hother : (⟨.other, mask, 1⟩ : Evaluated) ∈ maskedSelectors 1 := .tail _ (.head _)
  obtain ⟨houtcome, -, hselected⟩ :=
    hknown (maskedSelectors 1) rfl (hasKind_maskedSelectors 1) ⟨_, hother, rfl⟩
  exact ⟨houtcome, hselected.mpr (.inr (.inl rfl))⟩

/-- A mask with two axes leaves none: the source selects with it and the integer alone, and the host
is handed one slice more than the array has axes for. -/
theorem masked_selection_lost :
    let a : Expr := .name (.typed ⟨0, 1⟩ (.strided .bool 3)) "a" .load
    let host := [full ⟨2, 5⟩, ⟨.other, mask, 2⟩, ⟨.integer, literal (.int 0) ⟨10, 11⟩, 1⟩]
    arraySubscript ⟨0, 12⟩ .bool 3 a
        (.extSlice (.typed ⟨2, 11⟩ .object) ((maskedSelectors 2).map expr)) .load {} =
      .ok (hostSubscript ⟨0, 12⟩ a (.extSlice (.typed ⟨2, 5⟩ .object) (host.map expr)) .load {}) ∧
    select? 3 (maskedSelectors 2) =
      some [.applied mask 2, .applied (literal (.int 0) ⟨10, 11⟩) 1] ∧
    select? 3 host = none :=
  ⟨rfl, rfl, rfl⟩

end KernelFront.Inference
