import KernelFront.Proofs.Promotion
import Mathlib.Data.ENat.Basic
import Mathlib.Data.Set.Finite.Lattice
import Mathlib.Data.Set.Finite.Lemmas
import Mathlib.Data.Set.Finite.List

/-! # Vocabularies

A vocabulary says which widths, displays and names the types over it may mention, and how deep they
may be nested, if that is limited at all. It leaves the number of axes of arrays open: with a bound
on that as well, a finite vocabulary has finitely many types. Promotion never leaves a vocabulary.
-/

namespace KernelFront

/-- What a type mentions, apart from numbers of axes. -/
inductive Letter where
  /-- The width of a number. -/
  | width (bits : Nat)
  /-- The size of a tuple or list, with the constants that its type records. -/
  | display (size : Nat) (value : Option (List Constant))
  /-- The type of a name that is no value. -/
  | atom (ty : Ty)

/-- The types without parts that have a letter. -/
def Letter.words : Letter → List Ty
  | .width bits => [.int true bits, .int false bits, .float bits, .complex bits]
  | .display size value => [.tuple size value, .list size value]
  | .atom ty => [ty]

namespace Constant

mutual

/-- The letters of the type of a constant. -/
def letters : Constant → List Letter
  | .int _ | .float _ | .complex _ _ => [.width 64]
  | .str _ => [.width 8]
  | .tuple items =>
      .display items.length (some items) :: .display items.length none :: lettersAll items
  | .nothing | .bool _ | .ellipsis | .null | .stdout => []

/-- The letters of several constants. -/
def lettersAll : List Constant → List Letter
  | [] => []
  | item :: items => letters item ++ lettersAll items

end

theorem mem_lettersAll {letter : Letter} {items : List Constant} :
    letter ∈ lettersAll items ↔ ∃ item ∈ items, letter ∈ letters item := by
  induction items with
  | nil => simp [lettersAll]
  | cons item items ih => simp [lettersAll, ih]

end Constant

namespace Ty

/-- The letters of a type. A display also has the letter of the display that records nothing, which
is what its type is promoted to. -/
def letters : Ty → List Letter
  | .int _ bits | .float bits | .complex bits => [.width bits]
  | .pointer base | .dtype base | .array base _ | .carray base _ => base.letters
  | .tuple size value | .list size value =>
      .display size value :: .display size none :: Constant.lettersAll (value.getD [])
  | .module name isNumpy => [.atom (.module name isNumpy)]
  | .moduleAttribute owner attr isNumpy => [.atom (.moduleAttribute owner attr isNumpy)]
  | .builtin name => [.atom (.builtin name)]
  | .global name => [.atom (.global name)]
  | .function args ret => [.atom (.function args ret)]
  | .bool | .range | .slice | .ellipsis | .newAxis | .object | .void => []

/-- How many types are nested in a type, one below the other. -/
def depth : Ty → Nat
  | .pointer base | .dtype base | .array base _ | .carray base _ => base.depth + 1
  | _ => 0

/-- The largest number of axes in a type. A fixed-size array, which holds one entry for each axis of
an array, counts with its size. -/
def axes : Ty → Nat
  | .array elem layout => max layout.ndim elem.axes
  | .carray base size => max size base.axes
  | .pointer base | .dtype base => base.axes
  | _ => 0

theorem letters_ofConstant (value : Constant) : (ofConstant value).letters = value.letters := by
  cases value <;> rfl

theorem depth_ofConstant (value : Constant) : (ofConstant value).depth ≤ 1 := by
  cases value with
  | str | stdout => exact Nat.le_refl 1
  | _ => exact Nat.zero_le 1

end Ty

/-- The letters that types may have, and how deep they may be nested. -/
structure Vocabulary where
  letters : Set Letter
  bound : ℕ∞

namespace Vocabulary

/-- The type has no other letters and is not nested deeper. -/
structure Spells (vocabulary : Vocabulary) (ty : Ty) : Prop where
  letters : ∀ letter ∈ ty.letters, letter ∈ vocabulary.letters
  depth : ty.depth ≤ vocabulary.bound

variable {vocabulary : Vocabulary}

theorem Spells.flat {ty : Ty} (hdepth : ty.depth = 0)
    (hletters : ∀ letter ∈ ty.letters, letter ∈ vocabulary.letters) : vocabulary.Spells ty :=
  ⟨hletters, by simp [hdepth]⟩

/-- Types without letters and parts are always there. -/
theorem Spells.plain {ty : Ty} (hdepth : ty.depth = 0) (hletters : ty.letters = []) :
    vocabulary.Spells ty :=
  .flat hdepth (hletters ▸ List.forall_mem_nil _)

theorem Spells.base {ty base : Ty} (hspells : vocabulary.Spells ty)
    (hbase : ty.baseType = some base) : vocabulary.Spells base := by
  cases ty <;> cases hbase <;>
    exact ⟨hspells.letters, (Nat.cast_le.mpr (Nat.le_succ _)).trans hspells.depth⟩

/-- The number of axes does not matter. -/
theorem Spells.strided {elem : Ty} {layout : Layout}
    (hspells : vocabulary.Spells (.array elem layout)) (other : Layout) :
    vocabulary.Spells (.array elem other) :=
  ⟨hspells.letters, hspells.depth⟩

/-- The constants that a display records have types of their own. -/
theorem Spells.item {ty : Ty} {items : List Constant} {item : Constant}
    (hspells : vocabulary.Spells ty) (hitems : ty.constantElements = some items)
    (hitem : item ∈ items) (hbound : 1 ≤ vocabulary.bound) :
    vocabulary.Spells (.ofConstant item) := by
  have hdepth : ((Ty.ofConstant item).depth : ℕ∞) ≤ 1 := mod_cast Ty.depth_ofConstant item
  refine ⟨fun letter hletter => ?_, hdepth.trans hbound⟩
  rw [Ty.letters_ofConstant] at hletter
  have hall : letter ∈ Constant.lettersAll items :=
    Constant.mem_lettersAll.mpr ⟨item, hitem, hletter⟩
  refine hspells.letters letter ?_
  cases ty <;> cases hitems <;> simp [Ty.letters, hall]

/-! ## Promotion -/

theorem Spells.directed {a b c : Ty} (ha : vocabulary.Spells a) (hb : vocabulary.Spells b)
    (hdirected : a.directed b = some c) : vocabulary.Spells c := by
  -- The wider of two widths is one of them.
  have hwidest {m n : Nat} (hm : ∀ letter ∈ [Letter.width m], letter ∈ vocabulary.letters)
      (hn : ∀ letter ∈ [Letter.width n], letter ∈ vocabulary.letters) :
      ∀ letter ∈ [Letter.width (max m n)], letter ∈ vocabulary.letters := by
    rcases Nat.le_total m n with hle | hle
    · rwa [Nat.max_eq_right hle]
    · rwa [Nat.max_eq_left hle]
  -- A display that forgets its constants keeps the letter of its size.
  have hforget {size : Nat} {value : Option (List Constant)}
      (hletters : ∀ letter ∈ (Ty.tuple size value).letters, letter ∈ vocabulary.letters) :
      ∀ letter ∈ (Ty.tuple size none).letters, letter ∈ vocabulary.letters := by
    have hsize := hletters (.display size none) (by simp [Ty.letters])
    simpa [Ty.letters, Constant.lettersAll] using hsize
  unfold Ty.directed at hdirected
  split at hdirected
  · split at hdirected <;> cases hdirected
    exact ha
  · split at hdirected <;> cases hdirected
    exact hb
  · cases hdirected
    exact .flat rfl (hwidest ha.letters hb.letters)
  · cases hdirected
    exact hb
  · cases hdirected
    exact .flat rfl (hwidest ha.letters hb.letters)
  · cases hdirected
    exact ha
  · cases hdirected
    exact .flat rfl (hwidest ha.letters hb.letters)
  · cases hdirected
    exact .flat rfl (hwidest ha.letters hb.letters)
  · cases hdirected
    exact ha
  · split at hdirected <;> cases hdirected
    exact .flat rfl (hforget ha.letters)
  · split at hdirected <;> cases hdirected
    exact .flat rfl (hforget ha.letters)
  · cases hdirected

theorem Spells.promoteFlat {a b c : Ty} (ha : vocabulary.Spells a) (hb : vocabulary.Spells b)
    (hpromote : a.promoteFlat b = some c) : vocabulary.Spells c := by
  unfold Ty.promoteFlat at hpromote
  split at hpromote
  · cases hpromote
    exact ha
  · cases hdirected : a.directed b with
    | some found =>
        rw [hdirected] at hpromote
        cases hpromote
        exact ha.directed hb hdirected
    | none =>
        rw [hdirected] at hpromote
        exact hb.directed ha hpromote

/-- The vocabulary of what is nested in its types. -/
def inner (vocabulary : Vocabulary) : Vocabulary :=
  { vocabulary with bound := vocabulary.bound - 1 }

theorem spells_nested {ty base : Ty} (hbase : ty.baseType = some base) :
    vocabulary.Spells ty ↔ 1 ≤ vocabulary.bound ∧ vocabulary.inner.Spells base := by
  have hparts : ty.letters = base.letters ∧ ty.depth = base.depth + 1 := by
    cases ty <;> cases hbase <;> exact ⟨rfl, rfl⟩
  obtain ⟨hletters, hdepth⟩ := hparts
  have hnested : (ty.depth : ℕ∞) ≤ vocabulary.bound ↔
      1 ≤ vocabulary.bound ∧ (base.depth : ℕ∞) ≤ vocabulary.bound - 1 := by
    rw [hdepth]
    cases vocabulary.bound with
    | top => simp
    | coe bound =>
        norm_cast
        omega
  constructor
  · rintro ⟨hmentions, hbound⟩
    obtain ⟨hpos, hinner⟩ := hnested.mp hbound
    exact ⟨hpos, hletters ▸ hmentions, hinner⟩
  · rintro ⟨hpos, hmentions, hinner⟩
    exact ⟨hletters ▸ hmentions, hnested.mpr ⟨hpos, hinner⟩⟩

theorem Spells.promoteScalar {scalar ty c : Ty} (hnumeric : scalar.isNumeric)
    (hscalar : vocabulary.Spells scalar) (hty : vocabulary.Spells ty)
    (hpromote : Ty.promoteScalar scalar ty = some c) : vocabulary.Spells c := by
  fun_induction Ty.promoteScalar scalar ty generalizing vocabulary c with
  | case1 elem layout ih =>
      obtain ⟨result, hresult, rfl⟩ := Option.map_eq_some_iff.mp hpromote
      obtain ⟨hbound, helem⟩ := (spells_nested rfl).mp hty
      have hdepth : scalar.depth = 0 := by cases scalar <;> first | rfl | cases hnumeric
      exact (spells_nested rfl).mpr ⟨hbound, ih (.flat hdepth hscalar.letters) helem hresult⟩
  | case2 ty hflat => exact hty.promoteFlat hscalar hpromote

theorem Spells.promote? {a b c : Ty} (ha : vocabulary.Spells a) (hb : vocabulary.Spells b)
    (hpromote : a.promote? b = some c) : vocabulary.Spells c := by
  fun_induction Ty.promote? a b generalizing vocabulary c with
  | case1 x l y m ih =>
      obtain ⟨result, hresult, rfl⟩ := Option.map_eq_some_iff.mp hpromote
      obtain ⟨hbound, hx⟩ := (spells_nested rfl).mp ha
      exact (spells_nested rfl).mpr ⟨hbound, ih hx ((spells_nested rfl).mp hb).2 hresult⟩
  | case2 x m y ih =>
      obtain ⟨result, hresult, rfl⟩ := Option.map_eq_some_iff.mp hpromote
      obtain ⟨hbound, hx⟩ := (spells_nested rfl).mp ha
      exact (spells_nested rfl).mpr ⟨hbound, ih hx ((spells_nested rfl).mp hb).2 hresult⟩
  | case3 => cases hpromote
  | case4 x l b _ hnumeric => exact hb.promoteScalar hnumeric ha hpromote
  | case5 => exact ha.promoteFlat hb hpromote
  | case6 a y m _ hnumeric => exact ha.promoteScalar hnumeric hb hpromote
  | case7 => exact ha.promoteFlat hb hpromote
  | case8 => exact ha.promoteFlat hb hpromote

/-! ## How many types there are -/

/-- The types without letters and parts. -/
def plainTypes : List Ty := [.bool, .range, .slice, .ellipsis, .newAxis, .object, .void]

theorem mem_words {ty : Ty} (hflat : ty.baseType = none) :
    ty ∈ plainTypes ∨ ∃ letter ∈ ty.letters, ty ∈ letter.words := by
  cases ty with
  | pointer | array | carray | dtype => cases hflat
  | int signed bits => exact .inr ⟨_, List.mem_cons_self, by cases signed <;> simp [Letter.words]⟩
  | float | complex | tuple | list | module | moduleAttribute | builtin | global | function =>
      exact .inr ⟨_, List.mem_cons_self, by simp [Letter.words]⟩
  | _ => exact .inl (by simp [plainTypes])

theorem finite_flat (hfinite : vocabulary.letters.Finite) :
    {ty : Ty | ty.baseType = none ∧ ∀ letter ∈ ty.letters, letter ∈ vocabulary.letters}.Finite := by
  have hwords : (⋃ letter ∈ vocabulary.letters, {ty | ty ∈ letter.words}).Finite :=
    hfinite.biUnion fun letter _ => List.finite_toSet letter.words
  refine ((List.finite_toSet plainTypes).union hwords).subset ?_
  rintro ty ⟨hflat, hletters⟩
  obtain hplain | ⟨letter, hletter, hword⟩ := mem_words hflat
  · exact .inl hplain
  · exact .inr (Set.mem_biUnion (hletters letter hletter) hword)

theorem finite_layouts (axes : Nat) : {layout : Layout | layout.ndim ≤ axes}.Finite := by
  have hall : ({ndim | ndim ≤ axes} ×ˢ (Set.univ : Set (Bool × Bool))).Finite :=
    (Set.finite_le_nat axes).prod Set.finite_univ
  refine (hall.image fun parts => Layout.mk parts.1 parts.2.1 parts.2.2).subset ?_
  rintro ⟨ndim, cContig, innerContig⟩ hndim
  exact ⟨(ndim, cContig, innerContig), ⟨hndim, trivial⟩, rfl⟩

/-- There are finitely many letters, and nesting is limited. -/
structure IsFinite (vocabulary : Vocabulary) : Prop where
  letters : vocabulary.letters.Finite
  bound : vocabulary.bound ≠ ⊤

/-- With a bound on the number of axes, a finite vocabulary has finitely many types. -/
theorem finite_spelled (hvocabulary : vocabulary.IsFinite) (axes : Nat) :
    {ty | vocabulary.Spells ty ∧ ty.axes ≤ axes}.Finite := by
  -- Each type is flat or is made of a type that is nested less deep.
  obtain ⟨letters, bound⟩ := vocabulary
  obtain ⟨hfinite, hbound⟩ := hvocabulary
  lift bound to ℕ using hbound
  induction bound with
  | zero =>
      refine (finite_flat hfinite).subset ?_
      rintro ty ⟨⟨hletters, hdepth⟩, -⟩
      have hflat : ty.depth = 0 := by simpa using hdepth
      refine ⟨?_, hletters⟩
      cases ty <;> first | rfl | cases hflat
  | succ bound ih =>
      let parts := {ty | Vocabulary.Spells ⟨letters, bound⟩ ty ∧ ty.axes ≤ axes}
      have hparts : parts.Finite := ih hfinite
      have hmade := (((hparts.image Ty.pointer).union (hparts.image Ty.dtype)).union
        (hparts.image2 Ty.array (finite_layouts axes))).union
        (hparts.image2 Ty.carray (Set.finite_le_nat axes))
      refine ((finite_flat hfinite).union hmade).subset ?_
      rintro ty ⟨hspells, haxes⟩
      have hpart {base : Ty} (hbase : ty.baseType = some base) (hle : base.axes ≤ ty.axes) :
          base ∈ parts :=
        ⟨((spells_nested hbase).mp hspells).2, hle.trans haxes⟩
      cases ty with
      | pointer base => exact .inr (.inl (.inl (.inl ⟨base, hpart rfl (Nat.le_refl _), rfl⟩)))
      | dtype base => exact .inr (.inl (.inl (.inr ⟨base, hpart rfl (Nat.le_refl _), rfl⟩)))
      | array elem layout =>
          have hndim : layout.ndim ≤ axes := (Nat.le_max_left _ _).trans haxes
          exact .inr (.inl (.inr ⟨elem, hpart rfl (Nat.le_max_right _ _), layout, hndim, rfl⟩))
      | carray base size =>
          have hsize : size ≤ axes := (Nat.le_max_left _ _).trans haxes
          exact .inr (.inr ⟨base, hpart rfl (Nat.le_max_right _ _), size, hsize, rfl⟩)
      | _ => exact .inl ⟨rfl, hspells.letters⟩

end Vocabulary

end KernelFront
