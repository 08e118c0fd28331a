import KernelFront.Proofs.Promotion
import Mathlib.Logic.Relation

/-! # Chains of promotions

A type that is widened again and again need not end in a type that it widens to at once: a truth
value widens to an integer and an integer to a pointer, but a truth value has no common type with a
pointer. This is the only gap. `Climbs` fills it, alone or inside arrays, and goes on with every
further promotion, so that every chain of promotions is a climb.
-/

namespace KernelFront

theorem Layout.Loosens.trans {l m n : Layout} (hlm : l.Loosens m) (hmn : m.Loosens n) :
    l.Loosens n :=
  ⟨Nat.le_trans hlm.ndim hmn.ndim, fun h => hlm.cContig (hmn.cContig h),
    fun h => hlm.innerContig (hmn.innerContig h)⟩

namespace Ty

/-- The type of the innermost elements of an array. -/
def core : Ty → Ty
  | .array elem _ => elem.core
  | .carray base _ => base.core
  | t => t

/-- Whether this is a pointer type. -/
def isPointer : Ty → Bool
  | .pointer _ => true
  | _ => false

/-- The second type is made of pointers where the first one is made of truth values. -/
def Overshoots (s t : Ty) : Prop := s.core = .bool ∧ t.core.isPointer

instance (s t : Ty) : Decidable (s.Overshoots t) :=
  inferInstanceAs (Decidable (_ ∧ _))

/-- The first type converts to the second one in several steps. -/
inductive Climbs : Ty → Ty → Prop where
  | widens {s t : Ty} (hst : s.Widens t) : Climbs s t
  | boolPointer (base : Ty) : Climbs .bool (.pointer base)
  | carray {s t : Ty} {n : Nat} (hbase : Climbs s t) : Climbs (.carray s n) (.carray t n)
  | array {s t : Ty} {l m : Layout} (helem : Climbs s t) (hlayout : l.Loosens m) :
      Climbs (.array s l) (.array t m)
  | element {s t : Ty} {l : Layout} (hs : s.isNumeric) (helem : Climbs s t) :
      Climbs s (.array t l)

theorem core_of_isNumeric {s : Ty} (hs : s.isNumeric) : s.core = s := by
  cases s with
  | array | carray => cases hs
  | _ => rfl

theorem isPointer_of_isNumeric {s : Ty} (hs : s.isNumeric) : s.isPointer = false := by
  cases s with
  | pointer => cases hs
  | _ => rfl

theorem ne_void_of_isNumeric {s : Ty} (hs : s.isNumeric) : s ≠ .void := by
  rintro rfl
  cases hs

/-- No single promotion leads from truth values to pointers. -/
theorem Widens.not_overshoots {s t : Ty} (hst : s.Widens t) : ¬ s.Overshoots t := by
  rintro ⟨hs, ht⟩
  induction hst with
  | refl =>
      rw [hs] at ht
      cases ht
  | bool hnumeric =>
      rw [core_of_isNumeric hnumeric, isPointer_of_isNumeric hnumeric] at ht
      cases ht
  | carray _ ih => exact ih hs ht
  | array _ _ ih => exact ih hs ht
  | element _ _ ih => exact ih hs ht
  | int | intPointer => cases hs
  | _ => cases ht

/-- A climb is a promotion unless it leads from truth values to pointers. -/
theorem Climbs.widens_iff {s t : Ty} (hst : s.Climbs t) : s.Widens t ↔ ¬ s.Overshoots t := by
  constructor
  · exact Widens.not_overshoots
  · intro hgap
    induction hst with
    | widens hst => exact hst
    | boolPointer base => exact absurd ⟨rfl, rfl⟩ hgap
    | carray _ ih => exact .carray (ih hgap)
    | array _ hlayout ih => exact .array (ih hgap) hlayout
    | element hs _ ih => exact .element hs (ih hgap)

theorem pointer_widens_iff {base t : Ty} :
    (Ty.pointer base).Widens t ↔ t = .pointer base ∨ t = .object := by
  constructor
  · intro h
    cases h with
    | refl => exact .inl rfl
    | object _ => exact .inr rfl
    | element hs => cases hs
  · rintro (rfl | rfl)
    · exact .refl _
    · exact .object nofun

theorem object_widens_iff {t : Ty} : Ty.object.Widens t ↔ t = .object := by
  constructor
  · intro h
    cases h with
    | refl => rfl
    | object _ => rfl
    | element hs => cases hs
  · rintro rfl
    exact .refl _

/-- From a numeric scalar to another one, and on to what that one widens to. -/
theorem Widens.climbs_of_isNumeric {s t u : Ty} (hs : s.isNumeric) (ht : t.isNumeric)
    (hst : s.Widens t) (htu : t.Widens u) : s.Climbs u := by
  induction htu with
  | refl => exact .widens hst
  | object _ => exact .widens (.object (ne_void_of_isNumeric hs))
  | element _ _ ih => exact .element hs (ih ht hst)
  | bool hu =>
      cases hst with
      | refl => exact .widens (.bool hu)
      | bool _ => exact .widens (.bool hu)
  | int hsigned hbits =>
      cases hst with
      | refl => exact .widens (.int hsigned hbits)
      | bool _ => exact .widens (.bool rfl)
      | int hfirst hless => exact .widens (.int (hsigned ∘ hfirst) (Nat.le_trans hless hbits))
  | intFloat =>
      cases hst with
      | bool _ => exact .widens (.bool rfl)
      | _ => exact .widens .intFloat
  | intComplex =>
      cases hst with
      | bool _ => exact .widens (.bool rfl)
      | _ => exact .widens .intComplex
  | intPointer =>
      cases hst with
      | bool _ => exact .boolPointer _
      | _ => exact .widens .intPointer
  | float hbits =>
      cases hst with
      | refl => exact .widens (.float hbits)
      | bool _ => exact .widens (.bool rfl)
      | intFloat => exact .widens .intFloat
      | float hless => exact .widens (.float (Nat.le_trans hless hbits))
  | floatComplex hbits =>
      cases hst with
      | refl => exact .widens (.floatComplex hbits)
      | bool _ => exact .widens (.bool rfl)
      | intFloat => exact .widens .intComplex
      | float hless => exact .widens (.floatComplex (Nat.le_trans hless hbits))
  | complex hbits =>
      cases hst with
      | refl => exact .widens (.complex hbits)
      | bool _ => exact .widens (.bool rfl)
      | intComplex => exact .widens .intComplex
      | floatComplex hless => exact .widens (.floatComplex (Nat.le_trans hless hbits))
      | complex hless => exact .widens (.complex (Nat.le_trans hless hbits))
  | carray | array | tuple | list => cases ht

/-- A promotion after a promotion is a climb. -/
theorem Widens.climbs {s t u : Ty} (hst : s.Widens t) (htu : t.Widens u) : s.Climbs u := by
  induction hst generalizing u with
  | refl => exact .widens htu
  | object hs =>
      obtain rfl := object_widens_iff.mp htu
      exact .widens (.object hs)
  | bool ht => exact climbs_of_isNumeric rfl ht (.bool ht) htu
  | int hsigned hbits => exact climbs_of_isNumeric rfl rfl (.int hsigned hbits) htu
  | intFloat => exact climbs_of_isNumeric rfl rfl .intFloat htu
  | intComplex => exact climbs_of_isNumeric rfl rfl .intComplex htu
  | float hbits => exact climbs_of_isNumeric rfl rfl (.float hbits) htu
  | floatComplex hbits => exact climbs_of_isNumeric rfl rfl (.floatComplex hbits) htu
  | complex hbits => exact climbs_of_isNumeric rfl rfl (.complex hbits) htu
  | intPointer =>
      obtain rfl | rfl := pointer_widens_iff.mp htu
      · exact .widens .intPointer
      · exact .widens (.object nofun)
  | tuple =>
      cases htu with
      | refl => exact .widens .tuple
      | object _ => exact .widens (.object nofun)
      | tuple => exact .widens .tuple
      | element hs => cases hs
  | list =>
      cases htu with
      | refl => exact .widens .list
      | object _ => exact .widens (.object nofun)
      | list => exact .widens .list
      | element hs => cases hs
  | carray _ ih =>
      obtain rfl | ⟨base, rfl, hbase⟩ := widens_carray_iff.mp htu
      · exact .widens (.object nofun)
      · exact .carray (ih hbase)
  | array _ hlayout ih =>
      obtain rfl | ⟨elem, m, rfl, helem, hnext⟩ := widens_array_iff.mp htu
      · exact .widens (.object nofun)
      · exact .array (ih helem) (hlayout.trans hnext)
  | element hs _ ih =>
      obtain rfl | ⟨elem, m, rfl, helem, _⟩ := widens_array_iff.mp htu
      · exact .widens (.object (ne_void_of_isNumeric hs))
      · exact .element hs (ih helem)

/-- A climb goes on with every promotion. -/
theorem Climbs.trans_widens {s t u : Ty} (hst : s.Climbs t) (htu : t.Widens u) : s.Climbs u := by
  induction hst generalizing u with
  | widens hst => exact hst.climbs htu
  | boolPointer base =>
      obtain rfl | rfl := pointer_widens_iff.mp htu
      · exact .boolPointer base
      · exact .widens (.object nofun)
  | carray _ ih =>
      obtain rfl | ⟨base, rfl, hbase⟩ := widens_carray_iff.mp htu
      · exact .widens (.object nofun)
      · exact .carray (ih hbase)
  | array _ hlayout ih =>
      obtain rfl | ⟨elem, m, rfl, helem, hnext⟩ := widens_array_iff.mp htu
      · exact .widens (.object nofun)
      · exact .array (ih helem) (hlayout.trans hnext)
  | element hs _ ih =>
      obtain rfl | ⟨elem, m, rfl, helem, _⟩ := widens_array_iff.mp htu
      · exact .widens (.object (ne_void_of_isNumeric hs))
      · exact .element hs (ih helem)

/-- Widened step by step, the first type became the second one. -/
abbrev WidensAlong : Ty → Ty → Prop := Relation.ReflTransGen Widens

theorem WidensAlong.climbs {s t : Ty} (hst : s.WidensAlong t) : s.Climbs t := by
  induction hst with
  | refl => exact .widens (.refl s)
  | tail _ hstep ih => exact ih.trans_widens hstep

/-- What became of a type by many promotions is its promotion with the last one, unless pointers
stand where truth values were. -/
theorem WidensAlong.promote_eq_ok_iff {s t : Ty} (hst : s.WidensAlong t) :
    s.promote t = .ok t ↔ ¬ s.Overshoots t := by
  rw [Ty.promote_eq_ok_iff, promote?_eq_right_iff, hst.climbs.widens_iff]

end Ty

end KernelFront
