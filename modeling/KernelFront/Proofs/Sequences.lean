import KernelFront.Proofs.Chains

/-! # The promotion of a sequence

The types of a sequence are promoted one after the other, as the values that a function returns
meet in its result. Whether this succeeds depends on the order: a truth value and a pointer have no
promotion, but with an integer before the pointer they get there. Where it succeeds, the outcome is
the least type that all types of the sequence climb to, so it depends on no order.
-/

namespace KernelFront.Ty

/-! ## Climbs order the types -/

theorem climbs_array_iff {s d : Ty} {l : Layout} :
    (Ty.array s l).Climbs d ↔
      d = .object ∨ ∃ t m, d = .array t m ∧ s.Climbs t ∧ l.Loosens m := by
  constructor
  · intro h
    cases h with
    | widens hst =>
        obtain rfl | ⟨t, m, rfl, helem, hlayout⟩ := widens_array_iff.mp hst
        · exact .inl rfl
        · exact .inr ⟨t, m, rfl, .widens helem, hlayout⟩
    | array helem hlayout => exact .inr ⟨_, _, rfl, helem, hlayout⟩
    | element hs => cases hs
  · rintro (rfl | ⟨t, m, rfl, helem, hlayout⟩)
    · exact .widens (.object nofun)
    · exact .array helem hlayout

theorem climbs_carray_iff {s d : Ty} {n : Nat} :
    (Ty.carray s n).Climbs d ↔ d = .object ∨ ∃ t, d = .carray t n ∧ s.Climbs t := by
  constructor
  · intro h
    cases h with
    | widens hst =>
        obtain rfl | ⟨t, rfl, hbase⟩ := widens_carray_iff.mp hst
        · exact .inl rfl
        · exact .inr ⟨t, rfl, .widens hbase⟩
    | carray hbase => exact .inr ⟨_, rfl, hbase⟩
    | element hs => cases hs
  · rintro (rfl | ⟨t, rfl, hbase⟩)
    · exact .widens (.object nofun)
    · exact .carray hbase

theorem climbs_element_iff {s t : Ty} {l : Layout} (hs : s.isNumeric) :
    s.Climbs (.array t l) ↔ s.Climbs t := by
  constructor
  · intro h
    cases h with
    | widens hst => exact .widens ((widens_element_iff hs).mp hst)
    | array => cases hs
    | element _ helem => exact helem
  · exact .element hs

/-- Without truth values there is no gap, so every climb is a promotion. -/
theorem climbs_iff_widens {s t : Ty} (hs : s.core ≠ .bool) : s.Climbs t ↔ s.Widens t :=
  ⟨fun hst => hst.widens_iff.mpr fun hgap => hs hgap.1, .widens⟩

/-- What is made of pointers stays so, up to objects. -/
theorem Climbs.core_of_isPointer {s t : Ty} (hst : s.Climbs t) (hs : s.core.isPointer) :
    t.core.isPointer ∨ t.core = .object := by
  induction hst with
  | widens hst =>
      induction hst with
      | refl => exact .inl hs
      | object _ => exact .inr rfl
      | carray _ ih => exact ih hs
      | array _ _ ih => exact ih hs
      | element hnumeric _ _ =>
          rw [core_of_isNumeric hnumeric, isPointer_of_isNumeric hnumeric] at hs
          cases hs
      | _ => cases hs
  | boolPointer _ => cases hs
  | carray _ ih => exact ih hs
  | array _ _ ih => exact ih hs
  | element hnumeric _ _ =>
      rw [core_of_isNumeric hnumeric, isPointer_of_isNumeric hnumeric] at hs
      cases hs

/-- No climb leads back from pointers to truth values. -/
theorem Climbs.not_overshoots_back {s t : Ty} (hts : t.Climbs s) : ¬ s.Overshoots t := by
  rintro ⟨hs, ht⟩
  rcases hts.core_of_isPointer ht with hpointer | hobject
  · rw [hs] at hpointer
    cases hpointer
  · rw [hs] at hobject
    cases hobject

theorem Climbs.antisymm {s t : Ty} (hst : s.Climbs t) (hts : t.Climbs s) : s = t :=
  (hst.widens_iff.mpr hts.not_overshoots_back).antisymm
    (hts.widens_iff.mpr hst.not_overshoots_back)

/-! ## A promotion is below everything that both types climb to -/

/-- A rule decides for one of the types, or neither of them is made of truth values. -/
theorem directed_or_core {a b c : Ty} (h : directed a b = some c) :
    c = a ∨ c = b ∨ (a.core ≠ .bool ∧ b.core ≠ .bool ∧ c.core ≠ .bool) := by
  unfold directed at h
  split at h
  case h_1 =>
    split at h
    · cases h
    · exact .inl (Option.some.inj h).symm
  case h_2 =>
    split at h
    · exact .inr (.inl (Option.some.inj h).symm)
    · cases h
  case h_10 | h_11 =>
    split at h
    · cases h
      exact .inr (.inr ⟨nofun, nofun, nofun⟩)
    · cases h
  case h_12 => cases h
  all_goals
    cases h
    exact .inr (.inr ⟨nofun, nofun, nofun⟩)

theorem Climbs.promoteFlat {a b c d : Ty} (h : promoteFlat a b = some c) (ha : a.Climbs d)
    (hb : b.Climbs d) : c.Climbs d := by
  have hjoins := joins_promoteFlat h
  have hcases : c = a ∨ c = b ∨ (a.core ≠ .bool ∧ b.core ≠ .bool ∧ c.core ≠ .bool) := by
    unfold Ty.promoteFlat at h
    split at h
    · exact .inl (Option.some.inj h).symm
    · rw [Option.orElse_eq_or, Option.or_eq_some_iff] at h
      obtain hab | ⟨-, hba⟩ := h
      · exact directed_or_core hab
      · obtain rfl | rfl | ⟨hb, ha, hc⟩ := directed_or_core hba
        · exact .inr (.inl rfl)
        · exact .inl rfl
        · exact .inr (.inr ⟨ha, hb, hc⟩)
  obtain rfl | rfl | ⟨hcoreA, hcoreB, hcoreC⟩ := hcases
  · exact ha
  · exact hb
  · rw [climbs_iff_widens hcoreA] at ha
    rw [climbs_iff_widens hcoreB] at hb
    exact .widens (hjoins.least d ha hb)

theorem Climbs.promoteScalar {s t c d : Ty} (hs : s.isNumeric) (h : promoteScalar s t = some c)
    (ht : t.Climbs d) (hscalar : s.Climbs d) : c.Climbs d := by
  cases t with
  | array elem l =>
      obtain ⟨inner, hinner, rfl⟩ := Option.map_eq_some_iff.mp h
      obtain rfl | ⟨other, m, rfl, helem, hlayout⟩ := climbs_array_iff.mp ht
      · exact .widens (.object nofun)
      · rw [climbs_element_iff hs] at hscalar
        exact .array (helem.promoteScalar hs hinner hscalar) hlayout
  | _ => exact ht.promoteFlat h hscalar

/-- The promotion of two types climbs to everything that both of them climb to. -/
theorem Climbs.promote? {a b c d : Ty} (h : promote? a b = some c) (ha : a.Climbs d)
    (hb : b.Climbs d) : c.Climbs d := by
  fun_induction Ty.promote? a b generalizing c d with
  | case1 x l y m ih =>
      obtain ⟨elem, helem, rfl⟩ := Option.map_eq_some_iff.mp h
      obtain rfl | ⟨t, n, rfl, hx, hl⟩ := climbs_array_iff.mp ha
      · exact .widens (.object (by simp))
      · obtain hobject | ⟨_, _, harray, hy, hm⟩ := climbs_array_iff.mp hb
        · cases hobject
        · cases harray
          exact .array (ih helem hx hy) (hl.meet hm)
  | case2 x y n ih =>
      obtain ⟨base, hbase, rfl⟩ := Option.map_eq_some_iff.mp h
      obtain rfl | ⟨t, rfl, hx⟩ := climbs_carray_iff.mp ha
      · exact .widens (.object (by simp))
      · obtain hobject | ⟨_, hcarray, hy⟩ := climbs_carray_iff.mp hb
        · cases hobject
        · cases hcarray
          exact .carray (ih hbase hx hy)
  | case3 => cases h
  | case4 x l b _ hnumeric => exact ha.promoteScalar hnumeric h hb
  | case5 x l b _ _ => exact ha.promoteFlat h hb
  | case6 a y m _ hnumeric => exact hb.promoteScalar hnumeric h ha
  | case7 a y m _ _ => exact ha.promoteFlat h hb
  | case8 a b => exact ha.promoteFlat h hb

/-! ## Sequences -/

theorem foldlM_promote_cons_iff {s t u : Ty} {ts : List Ty} :
    (t :: ts).foldlM promote s = .ok u ↔
      ∃ c, promote? s t = some c ∧ ts.foldlM promote c = .ok u := by
  rw [List.foldlM_cons]
  unfold promote
  cases promote? s t with
  | none =>
      constructor
      · intro h
        cases h
      · rintro ⟨_, h, _⟩
        cases h
  | some c =>
      constructor
      · exact fun h => ⟨c, rfl, h⟩
      · rintro ⟨_, h, hrest⟩
        cases h
        exact hrest

/-- Every type of a sequence was widened to the outcome. -/
theorem widensAlong_of_foldlM {s u : Ty} {ss : List Ty} (h : ss.foldlM promote s = .ok u) :
    ∀ t ∈ s :: ss, t.WidensAlong u := by
  induction ss generalizing s with
  | nil =>
      cases h
      exact List.forall_mem_singleton.mpr .refl
  | cons x rest ih =>
      obtain ⟨c, hpromote, hrest⟩ := foldlM_promote_cons_iff.mp h
      have hjoins := joins_promote? hpromote
      have hall := ih hrest
      have hc := hall c List.mem_cons_self
      intro t ht
      rcases List.mem_cons.mp ht with rfl | ht
      · exact .head hjoins.left hc
      rcases List.mem_cons.mp ht with rfl | ht
      · exact .head hjoins.right hc
      · exact hall t (List.mem_cons_of_mem _ ht)

/-- The outcome is below everything that all types of the sequence climb to. -/
theorem climbs_of_foldlM {s u d : Ty} {ss : List Ty} (h : ss.foldlM promote s = .ok u)
    (hd : ∀ t ∈ s :: ss, t.Climbs d) : u.Climbs d := by
  induction ss generalizing s with
  | nil =>
      cases h
      exact hd _ List.mem_cons_self
  | cons x rest ih =>
      obtain ⟨c, hpromote, hrest⟩ := foldlM_promote_cons_iff.mp h
      obtain ⟨hs, hx, hbelow⟩ : s.Climbs d ∧ x.Climbs d ∧ ∀ t ∈ rest, t.Climbs d := by
        simpa using hd
      refine ih hrest (List.forall_mem_cons.mpr ⟨?_, hbelow⟩)
      exact hs.promote? hpromote hx

/-- Only the members of a sequence matter. -/
theorem foldlM_promote_unique {s t u v : Ty} {ss ts : List Ty}
    (hmembers : ∀ x, x ∈ s :: ss ↔ x ∈ t :: ts)
    (hu : ss.foldlM promote s = .ok u) (hv : ts.foldlM promote t = .ok v) : u = v := by
  have huv : u.Climbs v := climbs_of_foldlM hu fun x hx =>
    (widensAlong_of_foldlM hv x ((hmembers x).mp hx)).climbs
  have hvu : v.Climbs u := climbs_of_foldlM hv fun x hx =>
    (widensAlong_of_foldlM hu x ((hmembers x).mpr hx)).climbs
  exact huv.antisymm hvu

/-- Two orders of a sequence of types have the same promotion, if both have one. -/
theorem foldlM_promote_perm {s t u v : Ty} {ss ts : List Ty} (hperm : (s :: ss).Perm (t :: ts))
    (hu : ss.foldlM promote s = .ok u) (hv : ts.foldlM promote t = .ok v) : u = v :=
  foldlM_promote_unique (fun _ => hperm.mem_iff) hu hv

/-- Arrays of truth values, of integers and of pointers meet in an array of pointers if the integers
come before the pointers, in either of these orders. -/
theorem foldlM_promote_perm_arrays :
    ([strided int64 2, contiguous (.pointer float64) 1].foldlM promote (contiguous .bool 1) =
        .ok (strided (.pointer float64) 2)) ∧
      ([contiguous .bool 1, contiguous (.pointer float64) 1].foldlM promote (strided int64 2) =
        .ok (strided (.pointer float64) 2)) ∧
      ∀ u, [contiguous (.pointer float64) 1, strided int64 2].foldlM promote
        (contiguous .bool 1) ≠ .ok u := by
  have hfirst : [strided int64 2, contiguous (.pointer float64) 1].foldlM promote
      (contiguous .bool 1) = .ok (strided (.pointer float64) 2) := rfl
  obtain ⟨v, hv⟩ : ∃ v, [contiguous .bool 1, contiguous (.pointer float64) 1].foldlM promote
      (strided int64 2) = .ok v := ⟨_, rfl⟩
  obtain rfl := foldlM_promote_perm (List.Perm.swap _ _ _) hv hfirst
  exact ⟨hfirst, hv, nofun⟩

end KernelFront.Ty
