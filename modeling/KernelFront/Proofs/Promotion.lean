import KernelFront.Ty.Promotion

/-! # Promotion gives least upper bounds

`Widens` is the order in which types are promoted, given by its rules. A promotion that succeeds is
the least upper bound of the two types in this order, whichever of them comes first. Two types may
have an upper bound and still no promotion, since everything but `void` widens to an object.
-/

namespace KernelFront

/-- A layout that promises no more than another one: its rank is not smaller, and it is contiguous
only where the other one is. -/
structure Layout.Loosens (l m : Layout) : Prop where
  ndim : l.ndim ≤ m.ndim
  cContig : m.cContig → l.cContig
  innerContig : m.innerContig → l.innerContig

namespace Layout

theorem Loosens.refl (l : Layout) : l.Loosens l := ⟨Nat.le_refl _, id, id⟩

theorem meet_comm (l m : Layout) : l.meet m = m.meet l := by
  simp [meet, Nat.max_comm, Bool.and_comm]

@[simp] theorem meet_self (l : Layout) : l.meet l = l := by simp [meet]

theorem Loosens.antisymm {l m : Layout} (hlm : l.Loosens m) (hml : m.Loosens l) : l = m := by
  obtain ⟨n, c, i⟩ := l
  obtain ⟨n', c', i'⟩ := m
  obtain rfl : n = n' := Nat.le_antisymm hlm.ndim hml.ndim
  obtain rfl : c = c' := Bool.eq_iff_iff.mpr ⟨hml.cContig, hlm.cContig⟩
  obtain rfl : i = i' := Bool.eq_iff_iff.mpr ⟨hml.innerContig, hlm.innerContig⟩
  rfl

theorem loosens_meet_left (l m : Layout) : l.Loosens (l.meet m) := by
  constructor
  · exact Nat.le_max_left _ _
  · exact fun h => (Bool.and_eq_true_iff.mp h).1
  · exact fun h => (Bool.and_eq_true_iff.mp h).1

theorem loosens_meet_right (l m : Layout) : m.Loosens (l.meet m) :=
  meet_comm m l ▸ loosens_meet_left m l

theorem Loosens.meet {l m n : Layout} (hl : l.Loosens n) (hm : m.Loosens n) :
    (l.meet m).Loosens n := by
  constructor
  · exact Nat.max_le.mpr ⟨hl.ndim, hm.ndim⟩
  · intro hn
    simp [Layout.meet, hl.cContig hn, hm.cContig hn]
  · intro hn
    simp [Layout.meet, hl.innerContig hn, hm.innerContig hn]

end Layout

namespace Ty

/-- The first type converts to the second one when they meet. -/
inductive Widens : Ty → Ty → Prop where
  | refl (t : Ty) : Widens t t
  | object {t : Ty} (ht : t ≠ .void) : Widens t .object
  | bool {t : Ty} (ht : t.isNumeric) : Widens .bool t
  | int {s t : Bool} {m n : Nat} (hsigned : s → t) (hbits : m ≤ n) : Widens (.int s m) (.int t n)
  | intFloat {s : Bool} {m n : Nat} : Widens (.int s m) (.float n)
  | intComplex {s : Bool} {m n : Nat} : Widens (.int s m) (.complex n)
  | intPointer {s : Bool} {m : Nat} {base : Ty} : Widens (.int s m) (.pointer base)
  | float {m n : Nat} (hbits : m ≤ n) : Widens (.float m) (.float n)
  | floatComplex {m n : Nat} (hbits : m ≤ n) : Widens (.float m) (.complex n)
  | complex {m n : Nat} (hbits : m ≤ n) : Widens (.complex m) (.complex n)
  | tuple {n : Nat} {value : Option (List Constant)} : Widens (.tuple n value) (.tuple n none)
  | list {n : Nat} {value : Option (List Constant)} : Widens (.list n value) (.list n none)
  | carray {a b : Ty} {n : Nat} (hbase : Widens a b) : Widens (.carray a n) (.carray b n)
  | array {a b : Ty} {l m : Layout} (helem : Widens a b) (hlayout : l.Loosens m) :
      Widens (.array a l) (.array b m)
  /-- A numeric scalar meets an array in its elements. -/
  | element {s t : Ty} {l : Layout} (hs : s.isNumeric) (helem : Widens s t) :
      Widens s (.array t l)

/-- The least type that both types widen to. -/
structure Joins (a b c : Ty) : Prop where
  left : a.Widens c
  right : b.Widens c
  least : ∀ d, a.Widens d → b.Widens d → c.Widens d

theorem Joins.symm {a b c : Ty} (h : a.Joins b c) : b.Joins a c :=
  ⟨h.right, h.left, fun d hb ha => h.least d ha hb⟩

theorem joins_self (a : Ty) : a.Joins a a := ⟨.refl a, .refl a, fun _ ha _ => ha⟩

/-- The larger of two comparable types. -/
theorem Widens.joins {a b : Ty} (h : a.Widens b) : a.Joins b b := ⟨h, .refl b, fun _ _ hb => hb⟩

/-! ## What an array or a fixed-size array widens to -/

theorem widens_array_iff {a d : Ty} {l : Layout} :
    (Ty.array a l).Widens d ↔
      d = .object ∨ ∃ b m, d = .array b m ∧ a.Widens b ∧ l.Loosens m := by
  constructor
  · intro h
    cases h with
    | refl => exact .inr ⟨a, l, rfl, .refl a, .refl l⟩
    | object _ => exact .inl rfl
    | array helem hlayout => exact .inr ⟨_, _, rfl, helem, hlayout⟩
    | element hs => cases hs
  · rintro (rfl | ⟨b, m, rfl, helem, hlayout⟩)
    · exact .object nofun
    · exact .array helem hlayout

theorem widens_carray_iff {a d : Ty} {n : Nat} :
    (Ty.carray a n).Widens d ↔ d = .object ∨ ∃ b, d = .carray b n ∧ a.Widens b := by
  constructor
  · intro h
    cases h with
    | refl => exact .inr ⟨a, rfl, .refl a⟩
    | object _ => exact .inl rfl
    | carray hbase => exact .inr ⟨_, rfl, hbase⟩
    | element hs => cases hs
  · rintro (rfl | ⟨b, rfl, hbase⟩)
    · exact .object nofun
    · exact .carray hbase

/-- A numeric scalar widens to an array if it widens to the elements. -/
theorem widens_element_iff {s t : Ty} {l : Layout} (hs : s.isNumeric) :
    s.Widens (.array t l) ↔ s.Widens t := by
  constructor
  · intro h
    cases h with
    | refl => cases hs
    | bool ht => cases ht
    | array => cases hs
    | element _ helem => exact helem
  · exact .element hs

/-! ## Each rule gives a least upper bound -/

/-- An upper bound of numeric scalars that is below every other one, arrays apart, is below the
arrays as well. -/
theorem widens_of_numeric {a b c : Ty} (ha : a.isNumeric) (hb : b.isNumeric) (hc : c.isNumeric)
    (hleast : ∀ d, d.isArray = false → a.Widens d → b.Widens d → c.Widens d) (d : Ty)
    (habove : a.Widens d) (hother : b.Widens d) : c.Widens d := by
  cases d with
  | array elem l =>
      rw [widens_element_iff ha] at habove
      rw [widens_element_iff hb] at hother
      exact .element hc (widens_of_numeric ha hb hc hleast elem habove hother)
  | _ => exact hleast _ rfl habove hother

@[simp] theorem int_widens_int_iff {s t : Bool} {m n : Nat} :
    (Ty.int s m).Widens (.int t n) ↔ (s → t) ∧ m ≤ n := by
  constructor
  · intro h
    cases h with
    | refl => exact ⟨id, Nat.le_refl _⟩
    | int hsigned hbits => exact ⟨hsigned, hbits⟩
  · exact fun h => .int h.1 h.2

@[simp] theorem float_widens_float_iff {m n : Nat} :
    (Ty.float m).Widens (.float n) ↔ m ≤ n := by
  constructor
  · intro h
    cases h with
    | refl => exact Nat.le_refl _
    | float hbits => exact hbits
  · exact .float

@[simp] theorem float_widens_complex_iff {m n : Nat} :
    (Ty.float m).Widens (.complex n) ↔ m ≤ n := by
  constructor
  · intro h
    cases h with
    | floatComplex hbits => exact hbits
  · exact .floatComplex

@[simp] theorem complex_widens_complex_iff {m n : Nat} :
    (Ty.complex m).Widens (.complex n) ↔ m ≤ n := by
  constructor
  · intro h
    cases h with
    | refl => exact Nat.le_refl _
    | complex hbits => exact hbits
  · exact .complex

/-- What one integer type widens to is again an integer type, or all of them widen to it. -/
theorem Widens.of_int {s : Bool} {m : Nat} {d : Ty} (hd : d.isArray = false)
    (h : (Ty.int s m).Widens d) : (∃ t n, d = .int t n) ∨ ∀ t n, (Ty.int t n).Widens d := by
  cases h with
  | refl => exact .inl ⟨_, _, rfl⟩
  | int => exact .inl ⟨_, _, rfl⟩
  | object _ => exact .inr fun _ _ => .object nofun
  | intFloat => exact .inr fun _ _ => .intFloat
  | intComplex => exact .inr fun _ _ => .intComplex
  | intPointer => exact .inr fun _ _ => .intPointer
  | element => cases hd

theorem joins_int (s t : Bool) (m n : Nat) :
    (Ty.int s m).Joins (.int t n) (.int (s || t) (max m n)) := by
  refine ⟨?_, ?_, widens_of_numeric rfl rfl rfl ?_⟩
  · exact .int (fun hs => Bool.or_eq_true_iff.mpr (.inl hs)) (Nat.le_max_left m n)
  · exact .int (fun ht => Bool.or_eq_true_iff.mpr (.inr ht)) (Nat.le_max_right m n)
  intro d hd hm hn
  obtain ⟨u, bits, rfl⟩ | hall := hm.of_int hd
  · rw [int_widens_int_iff] at hm hn ⊢
    refine ⟨fun hsigned => ?_, Nat.max_le.mpr ⟨hm.2, hn.2⟩⟩
    exact (Bool.or_eq_true_iff.mp hsigned).elim hm.1 hn.1
  · exact hall _ _

theorem joins_float (m n : Nat) : (Ty.float m).Joins (.float n) (.float (max m n)) := by
  refine ⟨.float (Nat.le_max_left m n), .float (Nat.le_max_right m n), ?_⟩
  refine widens_of_numeric rfl rfl rfl ?_
  intro d hd hm hn
  cases hm with
  | refl => simpa [Nat.max_le] using hn
  | object _ => exact .object nofun
  | float hbits => simpa [Nat.max_le, hbits] using hn
  | floatComplex hbits => simpa [Nat.max_le, hbits] using hn
  | element => cases hd

theorem joins_complexFloat (m n : Nat) :
    (Ty.complex m).Joins (.float n) (.complex (max m n)) := by
  refine ⟨.complex (Nat.le_max_left m n), .floatComplex (Nat.le_max_right m n), ?_⟩
  refine widens_of_numeric rfl rfl rfl ?_
  intro d hd hm hn
  cases hm with
  | refl => simpa [Nat.max_le] using hn
  | object _ => exact .object nofun
  | complex hbits => simpa [Nat.max_le, hbits] using hn
  | element => cases hd

theorem joins_complex (m n : Nat) : (Ty.complex m).Joins (.complex n) (.complex (max m n)) := by
  refine ⟨.complex (Nat.le_max_left m n), .complex (Nat.le_max_right m n), ?_⟩
  refine widens_of_numeric rfl rfl rfl ?_
  intro d hd hm hn
  cases hm with
  | refl => simpa [Nat.max_le] using hn
  | object _ => exact .object nofun
  | complex hbits => simpa [Nat.max_le, hbits] using hn
  | element => cases hd

theorem joins_tuple {n : Nat} {v w : Option (List Constant)} (hne : v ≠ w) :
    (Ty.tuple n v).Joins (.tuple n w) (.tuple n none) := by
  refine ⟨.tuple, .tuple, fun d hv hw => ?_⟩
  cases hv with
  | refl =>
      -- The second type widens to the first one, which differs from it, so that records nothing.
      cases hw with
      | refl => exact absurd rfl hne
      | tuple => exact .refl _
  | object _ => exact .object nofun
  | tuple => exact .refl _
  | element hs => cases hs

theorem joins_list {n : Nat} {v w : Option (List Constant)} (hne : v ≠ w) :
    (Ty.list n v).Joins (.list n w) (.list n none) := by
  refine ⟨.list, .list, fun d hv hw => ?_⟩
  cases hv with
  | refl =>
      cases hw with
      | refl => exact absurd rfl hne
      | list => exact .refl _
  | object _ => exact .object nofun
  | list => exact .refl _
  | element hs => cases hs

theorem joins_directed {a b c : Ty} (hne : a ≠ b) (h : directed a b = some c) : a.Joins b c := by
  unfold directed at h
  split at h
  · split at h
    · cases h
    · cases h
      exact (Widens.object ‹_›).joins.symm
  · split at h
    · cases h
      exact (Widens.bool ‹_›).joins
    · cases h
  · cases h
    exact joins_int _ _ _ _
  · cases h
    exact Widens.intFloat.joins
  · cases h
    exact joins_float _ _
  · cases h
    exact Widens.intComplex.joins.symm
  · cases h
    exact joins_complexFloat _ _
  · cases h
    exact joins_complex _ _
  · cases h
    exact Widens.intPointer.joins.symm
  · split at h
    · rename_i hsize
      cases h
      subst hsize
      exact joins_tuple fun hvalue => hne (hvalue ▸ rfl)
    · cases h
  · split at h
    · rename_i hsize
      cases h
      subst hsize
      exact joins_list fun hvalue => hne (hvalue ▸ rfl)
    · cases h
  · cases h

theorem joins_promoteFlat {a b c : Ty} (h : promoteFlat a b = some c) : a.Joins b c := by
  unfold promoteFlat at h
  split at h
  · rename_i hsame
    cases h
    exact hsame ▸ joins_self a
  · rename_i hne
    rw [Option.orElse_eq_or, Option.or_eq_some_iff] at h
    obtain hab | ⟨_, hba⟩ := h
    · exact joins_directed hne hab
    · exact (joins_directed (Ne.symm hne) hba).symm

/-! ## Arrays are joined part by part -/

theorem Joins.array {a b c : Ty} (h : a.Joins b c) (l m : Layout) :
    (Ty.array a l).Joins (.array b m) (.array c (l.meet m)) := by
  refine ⟨.array h.left (l.loosens_meet_left m), .array h.right (l.loosens_meet_right m), ?_⟩
  intro d hbelow hother
  obtain rfl | ⟨elem, n, rfl, ha, hl⟩ := widens_array_iff.mp hbelow
  · exact .object nofun
  · obtain hobject | ⟨_, _, harray, hb, hm⟩ := widens_array_iff.mp hother
    · cases hobject
    · cases harray
      exact .array (h.least elem ha hb) (hl.meet hm)

theorem Joins.carray {a b c : Ty} (h : a.Joins b c) (n : Nat) :
    (Ty.carray a n).Joins (.carray b n) (.carray c n) := by
  refine ⟨.carray h.left, .carray h.right, fun d hbelow hother => ?_⟩
  obtain rfl | ⟨base, rfl, ha⟩ := widens_carray_iff.mp hbelow
  · exact .object nofun
  · obtain hobject | ⟨_, hcarray, hb⟩ := widens_carray_iff.mp hother
    · cases hobject
    · cases hcarray
      exact .carray (h.least base ha hb)

theorem Joins.element {a s c : Ty} (h : a.Joins s c) (hs : s.isNumeric) (l : Layout) :
    (Ty.array a l).Joins s (.array c l) := by
  refine ⟨.array h.left (.refl l), .element hs h.right, fun d hbelow hother => ?_⟩
  obtain rfl | ⟨elem, m, rfl, ha, hl⟩ := widens_array_iff.mp hbelow
  · exact .object nofun
  · exact .array (h.least elem ha ((widens_element_iff hs).mp hother)) hl

theorem joins_promoteScalar {scalar : Ty} (hs : scalar.isNumeric) {t c : Ty}
    (h : promoteScalar scalar t = some c) : t.Joins scalar c := by
  cases t with
  | array elem l =>
      obtain ⟨inner, hinner, rfl⟩ := Option.map_eq_some_iff.mp h
      exact (joins_promoteScalar hs hinner).element hs l
  | _ => exact joins_promoteFlat h

theorem joins_promote? {a b c : Ty} (h : promote? a b = some c) : a.Joins b c := by
  fun_induction promote? a b generalizing c with
  | case1 x l y m ih =>
      obtain ⟨elem, helem, rfl⟩ := Option.map_eq_some_iff.mp h
      exact (ih helem).array l m
  | case2 x y n ih =>
      obtain ⟨base, hbase, rfl⟩ := Option.map_eq_some_iff.mp h
      exact (ih hbase).carray n
  | case3 => cases h
  | case4 x l b _ hb => exact joins_promoteScalar hb h
  | case5 x l b _ _ => exact joins_promoteFlat h
  | case6 a y m _ ha => exact (joins_promoteScalar ha h).symm
  | case7 a y m _ _ => exact joins_promoteFlat h
  | case8 a b => exact joins_promoteFlat h

/-! ## A least upper bound is unique -/

theorem Widens.antisymm {a b : Ty} (hab : a.Widens b) (hba : b.Widens a) : a = b := by
  induction hab with
  | refl => rfl
  | object _ =>
      cases hba with
      | refl => rfl
      | object _ => rfl
      | element hs => cases hs
  | bool _ =>
      cases hba with
      | refl => rfl
      | bool _ => rfl
  | @int s t m n hsigned hbits =>
      obtain ⟨hback, hless⟩ := int_widens_int_iff.mp hba
      rw [Nat.le_antisymm hbits hless, Bool.eq_iff_iff.mpr ⟨hsigned, hback⟩]
  | float hbits => rw [Nat.le_antisymm hbits (float_widens_float_iff.mp hba)]
  | complex hbits => rw [Nat.le_antisymm hbits (complex_widens_complex_iff.mp hba)]
  | intFloat | intComplex | intPointer | floatComplex _ => cases hba
  | tuple =>
      cases hba with
      | refl => rfl
      | tuple => rfl
  | list =>
      cases hba with
      | refl => rfl
      | list => rfl
  | carray _ ih =>
      obtain hobject | ⟨base, hcarray, hbase⟩ := widens_carray_iff.mp hba
      · cases hobject
      · cases hcarray
        rw [ih hbase]
  | array _ hlayout ih =>
      obtain hobject | ⟨elem, l, harray, helem, hback⟩ := widens_array_iff.mp hba
      · cases hobject
      · cases harray
        rw [ih helem, hlayout.antisymm hback]
  | element hs _ _ =>
      obtain rfl | ⟨elem, l, rfl, _⟩ := widens_array_iff.mp hba <;> cases hs
theorem Joins.unique {a b c d : Ty} (hc : a.Joins b c) (hd : a.Joins b d) : c = d :=
  (hc.least d hd.left hd.right).antisymm (hd.least c hc.left hc.right)

/-! ## Promotion does not depend on the order of the types -/

theorem promoteFlat_comm (a b : Ty) : promoteFlat a b = promoteFlat b a := by
  by_cases hsame : a = b
  · rw [hsame]
  · unfold promoteFlat
    rw [if_neg hsame, if_neg (Ne.symm hsame), Option.orElse_eq_or, Option.orElse_eq_or]
    cases hab : directed a b with
    | none => cases directed b a <;> rfl
    | some c =>
        cases hba : directed b a with
        | none => rfl
        | some d =>
            -- Where both sides have a rule, both give the least upper bound.
            have hjoins := joins_directed (Ne.symm hsame) hba
            rw [(joins_directed hsame hab).unique hjoins.symm]

theorem promote?_comm (a b : Ty) : promote? a b = promote? b a := by
  fun_induction promote? a b with
  | case1 x l y m ih => rw [promote?, ih, Layout.meet_comm]
  | case2 x y n ih => simp [promote?, ih]
  | case3 x m y n hne => simp [promote?, Ne.symm hne]
  | case4 x l b hb hnumeric => simp [promote?, hnumeric]
  | case5 x l b hb hnumeric => simp [promote?, hnumeric, promoteFlat_comm]
  | case6 a y m ha hnumeric => simp [promote?, hnumeric]
  | case7 a y m ha hnumeric => simp [promote?, hnumeric, promoteFlat_comm]
  | case8 a b _ hcarrays ha hb =>
      rw [promoteFlat_comm, promote?]
      · exact hb
      · exact ha
      · exact fun x l y m hx _ => hb x l hx
      · exact fun x m y n hx hy => hcarrays y n x m hy hx

/-! ## Promotion decides the order -/

@[simp] theorem promote?_self (t : Ty) : promote? t t = some t := by
  cases t with
  | array elem l => simp [promote?, promote?_self elem]
  | carray base n => simp [promote?, promote?_self base]
  | _ => simp [promote?, promoteFlat]

/-- Promotion with a numeric scalar looks into arrays, and nothing else. -/
theorem promoteScalar_eq {s : Ty} (hs : s.isNumeric) (t : Ty) :
    promoteScalar s t = promote? t s := by
  cases t with
  | array elem l => cases s <;> first | rfl | cases hs
  | _ => cases s <;> first | rfl | cases hs

/-- What widens has a promotion. -/
theorem Widens.promote?_isSome {a b : Ty} (h : a.Widens b) : (promote? a b).isSome := by
  induction h with
  | refl t => simp
  | @object t ht => cases t <;> simp_all [promote?, promoteFlat, directed, isNumeric]
  | @bool t ht => cases t <;> simp_all [promote?, promoteFlat, directed, isNumeric]
  | int | intFloat | intComplex | intPointer | float | floatComplex | complex | tuple | list =>
      simp only [promote?, promoteFlat, directed]
      split <;> simp
  | carray _ ih => simpa [promote?] using ih
  | array _ _ ih => simpa [promote?] using ih
  | @element s t l hs _ ih =>
      rw [promote?_comm, ← promoteScalar_eq hs] at ih ⊢
      simpa [promoteScalar] using ih

theorem promote?_eq_right_iff {a b : Ty} : promote? a b = some b ↔ a.Widens b := by
  constructor
  · exact fun h => (joins_promote? h).left
  · intro h
    obtain ⟨c, hc⟩ := Option.isSome_iff_exists.mp h.promote?_isSome
    rw [hc, (joins_promote? hc).unique h.joins]

theorem promote_eq_ok_iff {a b c : Ty} : promote a b = .ok c ↔ promote? a b = some c := by
  unfold promote
  cases promote? a b <;> simp

/-- Promotion is symmetric and idempotent, and where two types have a promotion it is their least
upper bound: both are promoted to it, and it is promoted to every type that both are promoted to. -/
theorem promote_leastUpperBound (a b : Ty) :
    (∀ c, promote a b = .ok c ↔ promote b a = .ok c) ∧
      promote a a = .ok a ∧
      ∀ c, promote a b = .ok c →
        promote a c = .ok c ∧ promote b c = .ok c ∧
          ∀ d, promote a d = .ok d → promote b d = .ok d → promote c d = .ok d := by
  simp only [promote_eq_ok_iff, promote?_eq_right_iff]
  refine ⟨fun c => by rw [promote?_comm], .refl a, fun c hc => ?_⟩
  have hjoins := joins_promote? hc
  exact ⟨hjoins.left, hjoins.right, hjoins.least⟩

/-- A contiguous vector of floats meets a matrix of integers in a matrix of floats, below every
array that both are promoted to. -/
theorem promote_leastUpperBound_arrays :
    promote (contiguous float32 1) (strided int64 2) = .ok (strided float32 2) ∧
      promote (strided float32 2) (strided complex128 3) = .ok (strided complex128 3) := by
  obtain ⟨_, _, hleast⟩ := promote_leastUpperBound (contiguous float32 1) (strided int64 2)
  have hjoin : promote (contiguous float32 1) (strided int64 2) = .ok (strided float32 2) := rfl
  exact ⟨hjoin, (hleast _ hjoin).2.2 _ rfl rfl⟩

end Ty

end KernelFront
