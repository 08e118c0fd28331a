import KernelFront.Inference.Subscript
import Mathlib.Data.List.Forall2

/-! # Normalized selectors

A subscript of an array says what happens to each axis, but need not mention every one. The rule for
arrays writes it out: the selectors of the source stand in their order, full slices stand where an
ellipsis stood or, if there was none, at the end, and every axis has exactly one selector. The rank
of the result is the number of axes that these selectors leave or make.
-/

namespace KernelFront.Inference

variable {table : SymbolTable} {span : Span} {ndim fill : Nat} {kind : SelectorKind}
  {kinds : List SelectorKind} {selectors : List Expr}

/-! ## What selectors do -/

/-- What a visited selector does is known. -/
def HasKind (table : SymbolTable) (e : Expr) (kind : SelectorKind) : Prop :=
  selectorKind table e = .ok kind

theorem hasKind_fullSlice (table : SymbolTable) (span : Span) :
    HasKind table (fullSlice span) .slice := by
  rfl

theorem forall₂_hasKind_replicate (table : SymbolTable) (span : Span) (n : Nat) :
    List.Forall₂ (HasKind table) (List.replicate n (fullSlice span))
      (List.replicate n .slice) := by
  induction n with
  | zero => exact .nil
  | succ n ih => exact .cons (hasKind_fullSlice table span) ih

theorem mapM_selectorKind (hkinds : List.Forall₂ (HasKind table) selectors kinds) :
    selectors.mapM (selectorKind table) = .ok kinds := by
  induction hkinds with
  | nil => rfl
  | cons hkind _ ih =>
      rw [List.mapM_cons, hkind, ih]
      rfl

namespace SelectorKind

/-- How many selectors are not new axes. -/
def consuming (kinds : List SelectorKind) : Nat := kinds.countP (· != .newAxis)

/-- How many axes the selectors take at least: an ellipsis may stand for none. -/
def axesTaken (kinds : List SelectorKind) : Nat :=
  if .ellipsis ∈ kinds then consuming kinds - 1 else consuming kinds

theorem consuming_add_newAxes (kinds : List SelectorKind) :
    consuming kinds + kinds.count .newAxis = kinds.length := by
  induction kinds with
  | nil => rfl
  | cons kind kinds ih =>
      simp only [consuming] at ih ⊢
      cases kind <;> simp <;> omega

theorem consuming_eq_counts (kinds : List SelectorKind) :
    consuming kinds = kinds.count .ellipsis + kinds.count .integer + kinds.count .slice +
      kinds.count .other := by
  induction kinds with
  | nil => rfl
  | cons kind kinds ih =>
      simp only [consuming] at ih ⊢
      cases kind <;> simp [ih] <;> omega

theorem consuming_append (kinds rest : List SelectorKind) :
    consuming (kinds ++ rest) = consuming kinds + consuming rest :=
  List.countP_append

theorem consuming_replicate_slice (n : Nat) : consuming (List.replicate n .slice) = n := by
  simp [consuming, List.countP_replicate]

/-- What the selectors do once the ellipses are written out. -/
def expand (fill : Nat) : List SelectorKind → List SelectorKind
  | [] => []
  | .ellipsis :: kinds => List.replicate fill .slice ++ expand 1 kinds
  | kind :: kinds => kind :: expand fill kinds

theorem expand_of_notMem (hkinds : .ellipsis ∉ kinds) : expand fill kinds = kinds := by
  induction kinds with
  | nil => rfl
  | cons kind kinds ih =>
      obtain ⟨hkind, hrest⟩ := List.ne_and_not_mem_of_not_mem_cons hkinds
      cases kind with
      | ellipsis => exact absurd rfl hkind
      | _ => simp only [expand, ih hrest]

theorem length_expand_one (kinds : List SelectorKind) : (expand 1 kinds).length = kinds.length := by
  induction kinds with
  | nil => rfl
  | cons kind kinds ih => cases kind <;> simp [expand, ih]

/-- Only the first ellipsis stands for `fill` slices, each further one for a single slice. -/
theorem length_expand (hkinds : .ellipsis ∈ kinds) :
    (expand fill kinds).length + 1 = kinds.length + fill := by
  induction kinds with
  | nil => cases hkinds
  | cons kind kinds ih =>
      cases kind with
      | ellipsis =>
          simp only [expand, List.length_append, List.length_replicate, length_expand_one,
            List.length_cons]
          omega
      | _ =>
          have hrest : .ellipsis ∈ kinds := by simpa using hkinds
          have hlength := ih hrest
          simp only [expand, List.length_cons]
          omega

theorem ellipsis_notMem_expand : .ellipsis ∉ expand fill kinds := by
  induction kinds generalizing fill with
  | nil => exact List.not_mem_nil
  | cons kind kinds ih => cases kind <;> simp [expand, ih]

theorem count_expand (hellipsis : kind ≠ .ellipsis) (hslice : kind ≠ .slice) :
    (expand fill kinds).count kind = kinds.count kind := by
  induction kinds generalizing fill with
  | nil => rfl
  | cons first kinds ih =>
      cases first with
      | ellipsis =>
          rw [expand, List.count_append, List.count_replicate, ih, List.count_cons]
          simp [hslice.symm, hellipsis.symm]
      | _ => simp only [expand, List.count_cons, ih]

/-- Only slices are added, so that the others are the integers of the source. -/
theorem consuming_expand_eq_counts (hread : .other ∉ kinds) :
    consuming (expand fill kinds) = kinds.count .integer + (expand fill kinds).count .slice := by
  rw [consuming_eq_counts, List.count_eq_zero.mpr ellipsis_notMem_expand,
    @count_expand _ .integer _ (by decide) (by decide),
    @count_expand _ .other _ (by decide) (by decide), List.count_eq_zero.mpr hread]
  omega

/-- The first ellipsis leaves no axis over, so that full slices follow only if there is none. -/
theorem consuming_expand :
    consuming (expand (ndim + 1 - consuming kinds) kinds) =
      if .ellipsis ∈ kinds then max ndim (axesTaken kinds) else axesTaken kinds := by
  have hsource := consuming_add_newAxes kinds
  have hexpanded := consuming_add_newAxes (expand (ndim + 1 - consuming kinds) kinds)
  rw [count_expand (by decide) (by decide)] at hexpanded
  unfold axesTaken
  split
  next hmem =>
    have hlength : (expand (ndim + 1 - consuming kinds) kinds).length + 1 = _ := length_expand hmem
    omega
  next hmem => rw [expand_of_notMem hmem]

end SelectorKind

open SelectorKind

/-! ## Selectors written out -/

theorem forall₂_expandEllipses (hkinds : List.Forall₂ (HasKind table) selectors kinds) :
    List.Forall₂ (HasKind table) (expandEllipses fill (kinds.zip selectors))
      (expand fill kinds) := by
  induction hkinds generalizing fill with
  | nil => exact .nil
  | @cons e kind selectors kinds hkind _ ih =>
      cases kind with
      | ellipsis => exact List.rel_append (forall₂_hasKind_replicate table e.span fill) ih
      | _ => exact .cons hkind ih

theorem length_expandEllipses (hkinds : List.Forall₂ (HasKind table) selectors kinds) :
    consuming (expand fill kinds) + kinds.count .newAxis =
      (expandEllipses fill (kinds.zip selectors)).length := by
  rw [(forall₂_expandEllipses hkinds).length_eq, ← consuming_add_newAxes,
    count_expand (by decide) (by decide)]

/-- What stands for a selector of the source: the selector itself, or full slices for an
ellipsis. -/
inductive StandsFor : SelectorKind × Expr → List Expr → Prop where
  | kept {kind : SelectorKind} {e : Expr} (hkind : kind ≠ .ellipsis) : StandsFor (kind, e) [e]
  | filled (e : Expr) (n : Nat) :
      StandsFor (.ellipsis, e) (List.replicate n (fullSlice e.span))

theorem exists_standsFor (fill : Nat) (source : List (SelectorKind × Expr)) :
    ∃ pieces, List.Forall₂ StandsFor source pieces ∧
      expandEllipses fill source = pieces.flatten := by
  induction source generalizing fill with
  | nil => exact ⟨[], .nil, rfl⟩
  | cons selector source ih =>
      obtain ⟨kind, e⟩ := selector
      cases kind with
      | ellipsis =>
          obtain ⟨pieces, hpieces, hrest⟩ := ih 1
          refine ⟨_, .cons (.filled e fill) hpieces, ?_⟩
          rw [expandEllipses, hrest, List.flatten_cons]
      | _ =>
          obtain ⟨pieces, hpieces, hrest⟩ := ih fill
          refine ⟨_, .cons (.kept (by decide)) hpieces, ?_⟩
          simp only [expandEllipses, hrest, List.flatten_cons, List.singleton_append]

/-- The selectors `dims` say for each of `ndim` axes what the source says, and leave `rank` axes. -/
structure Normalized (table : SymbolTable) (ndim : Nat) (kinds : List SelectorKind)
    (selectors dims : List Expr) (rank : Nat) : Prop where
  /-- The selectors of the source stand in their order, with full slices only where an ellipsis
  stood or, without an ellipsis, at the end. -/
  spelled : ∃ pieces span padding, List.Forall₂ StandsFor (kinds.zip selectors) pieces ∧
    dims = pieces.flatten ++ List.replicate padding (fullSlice span) ∧
      (.ellipsis ∈ kinds → padding = 0)
  /-- There is one selector for each axis and each new axis. -/
  length : dims.length = ndim + kinds.count .newAxis
  /-- No selector is an ellipsis, one consumes each axis, and those that do not take one element
  of an axis are what the rank counts. -/
  counted : ∃ dimKinds, List.Forall₂ (HasKind table) dims dimKinds ∧ .ellipsis ∉ dimKinds ∧
    consuming dimKinds = ndim ∧ rank = dimKinds.count .slice + dimKinds.count .newAxis
  /-- Each integer takes one of the axes that there are or that are made. -/
  rank_eq : rank + kinds.count .integer = ndim + kinds.count .newAxis

/-- Written out and filled up with full slices, the selectors are normalized. -/
theorem normalized_expandEllipses (hkinds : List.Forall₂ (HasKind table) selectors kinds)
    (hread : .other ∉ kinds) (hfit : axesTaken kinds ≤ ndim) (span : Span) :
    let expanded := expandEllipses (ndim + 1 - consuming kinds) (kinds.zip selectors)
    let padding := ndim - (expanded.length - kinds.count .newAxis)
    kinds.count .integer ≤ ndim + kinds.count .newAxis ∧
      Normalized table ndim kinds selectors (expanded ++ List.replicate padding (fullSlice span))
        (ndim + kinds.count .newAxis - kinds.count .integer) := by
  intro expanded padding
  let expandedKinds := expand (ndim + 1 - consuming kinds) kinds
  have hexpanded : List.Forall₂ (HasKind table) expanded expandedKinds :=
    forall₂_expandEllipses hkinds
  have hlength : consuming expandedKinds + kinds.count .newAxis = expanded.length :=
    length_expandEllipses hkinds
  have hconsuming : consuming expandedKinds = _ := consuming_expand
  have hcounts : consuming expandedKinds = kinds.count .integer + expandedKinds.count .slice :=
    consuming_expand_eq_counts hread
  have hnewAxes : expandedKinds.count .newAxis = kinds.count .newAxis :=
    count_expand (by decide) (by decide)
  have hpadding : consuming expandedKinds + padding = ndim := by
    split at hconsuming <;> omega
  constructor
  · omega
  · constructor
    · obtain ⟨pieces, hpieces, hflatten⟩ := exists_standsFor _ (kinds.zip selectors)
      refine ⟨pieces, span, padding, hpieces, by rw [← hflatten], fun hmem => ?_⟩
      rw [if_pos hmem] at hconsuming
      omega
    · simp only [List.length_append, List.length_replicate]
      omega
    · refine ⟨expandedKinds ++ List.replicate padding .slice, ?_, ?_, ?_, ?_⟩
      · exact List.rel_append hexpanded (forall₂_hasKind_replicate table span padding)
      · simp [ellipsis_notMem_expand, expandedKinds]
      · rw [consuming_append, consuming_replicate_slice, hpadding]
      · rw [List.count_append, List.count_append, List.count_replicate_self,
          List.count_replicate, hnewAxes]
        simp only [beq_iff_eq, reduceCtorEq, if_false]
        omega
    · omega

/-! ## The rule for arrays -/

/-- A subscript whose selectors are all understood is refused exactly if they take more axes than
the array has. Otherwise its selectors are normalized and its type has as many axes as they leave:
none of the counts falls short of what is taken from it. -/
theorem arraySubscript_normalizes {elem : Ty} {value selector : Expr} {access : Access}
    (hselectors : selectors? selector = some selectors)
    (hkinds : List.Forall₂ (HasKind table) selectors kinds) (hread : .other ∉ kinds) :
    let newAxes := kinds.count .newAxis
    let expanded := expandEllipses (ndim + 1 - (selectors.length - newAxes)) (kinds.zip selectors)
    let outcome := arraySubscript span elem ndim value selector access table
    (∀ error, outcome = .error error ↔
      ndim < axesTaken kinds ∧ error = ⟨.tooManyIndices ndim (axesTaken kinds), span⟩) ∧
    (axesTaken kinds ≤ ndim → ∃ dims rank, Normalized table ndim kinds selectors dims rank ∧
      outcome = .ok (.subscript (.typed span (if rank = 0 then elem else .strided elem rank)) value
        (.extSlice (.typed (selectors.head?.elim span Expr.span) .object) dims) access)) ∧
    newAxes ≤ selectors.length ∧ newAxes ≤ expanded.length ∧
      (axesTaken kinds ≤ ndim → kinds.count .integer ≤ ndim + newAxes) := by
  intro newAxes expanded outcome
  have hsource : consuming kinds + newAxes = selectors.length := by
    rw [hkinds.length_eq, ← consuming_add_newAxes]
  have hfill : selectors.length - newAxes = consuming kinds := by omega
  have hlength : consuming (expand (ndim + 1 - consuming kinds) kinds) + newAxes =
      expanded.length := by
    unfold expanded
    rw [hfill]
    exact length_expandEllipses hkinds
  have hconsuming := @consuming_expand ndim kinds
  have houtcome : outcome =
      if ndim < expanded.length - newAxes then
        .error ⟨.tooManyIndices ndim (expanded.length - newAxes), span⟩
      else .ok (.subscript
        (.typed span (selectedType elem (ndim + newAxes - kinds.count .integer))) value
        (.extSlice (.typed (selectors.head?.elim span Expr.span) .object)
          (expanded ++ List.replicate (ndim - (expanded.length - newAxes))
            (fullSlice (selectors.head?.elim span Expr.span)))) access) := by
    have hother : ¬ 0 < kinds.count .other := by
      rw [List.count_eq_zero.mpr hread]
      exact Nat.lt_irrefl 0
    unfold outcome arraySubscript
    simp only [hselectors, mapM_selectorKind hkinds]
    exact if_neg hother
  refine ⟨fun error => ?_, fun hfit => ?_, by omega, by omega, fun hfit => ?_⟩
  · by_cases hexcess : ndim < axesTaken kinds
    · have hfound : expanded.length - newAxes = axesTaken kinds := by
        split at hconsuming <;> omega
      rw [houtcome, hfound, if_pos hexcess]
      simp [hexcess, eq_comm]
    · have hfit : ¬ ndim < expanded.length - newAxes := by
        split at hconsuming <;> omega
      rw [houtcome, if_neg hfit]
      simp [hexcess]
  · have hfound : ¬ ndim < expanded.length - newAxes := by
      split at hconsuming <;> omega
    rw [if_neg hfound] at houtcome
    refine ⟨_, _, ?_, houtcome⟩
    unfold expanded
    rw [hfill]
    exact (normalized_expandEllipses hkinds hread hfit _).2
  · exact (normalized_expandEllipses hkinds hread hfit span).1

/-- The selectors of `a[None, ..., 0, ..., :]`. -/
def mixedSelectors : List Expr :=
  [literal .nothing ⟨2, 6⟩, .ellipsis (.typed ⟨8, 11⟩ .ellipsis), literal (.int 0) ⟨13, 14⟩,
    .ellipsis (.typed ⟨16, 19⟩ .ellipsis), fullSlice ⟨21, 22⟩]

/-- On an array with five axes the first ellipsis stands for two of them, the second for one, and
the new axis makes up for the integer. -/
theorem arraySubscript_normalizes_mixed :
    let kinds : List SelectorKind := [.newAxis, .ellipsis, .integer, .ellipsis, .slice]
    List.Forall₂ (HasKind {}) mixedSelectors kinds ∧ axesTaken kinds = 3 ∧
      ∃ dims, Normalized {} 5 kinds mixedSelectors dims 5 ∧
        arraySubscript ⟨0, 23⟩ .bool 5 (literal .nothing ⟨0, 1⟩)
          (.extSlice (.typed ⟨2, 22⟩ .object) mixedSelectors) .load {} =
            .ok (.subscript (.typed ⟨0, 23⟩ (.strided .bool 5)) (literal .nothing ⟨0, 1⟩)
              (.extSlice (.typed ⟨2, 6⟩ .object) dims) .load) := by
  intro kinds
  have hkinds : List.Forall₂ (HasKind {}) mixedSelectors kinds :=
    .cons rfl (.cons rfl (.cons rfl (.cons rfl (.cons rfl .nil))))
  refine ⟨hkinds, by decide, ?_⟩
  obtain ⟨-, hfits, -⟩ :=
    @arraySubscript_normalizes {} ⟨0, 23⟩ 5 kinds mixedSelectors .bool (literal .nothing ⟨0, 1⟩)
      (.extSlice (.typed ⟨2, 22⟩ .object) mixedSelectors) .load rfl hkinds (by decide)
  obtain ⟨dims, rank, hdims, houtcome⟩ := hfits (by decide)
  have hrank : rank = 5 := by
    have := hdims.rank_eq
    simpa [kinds] using this
  subst hrank
  exact ⟨dims, hdims, houtcome⟩

end KernelFront.Inference
