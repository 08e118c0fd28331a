import KernelFront.Compilation

/-! # What a linker symbol shows of the argument types

In a linker symbol every bracket, star, colon, comma and blank of a printed type is an underscore.
`Ty.shadow` is what remains of a type. A symbol can be read back as the list of the shadows of its
argument types, so two lists of types have one symbol exactly if their shadows are the same. The
shadow forgets the constants that a tuple or list type records and whether an array is contiguous as
a whole, and it does not tell three levels of pointers from an axis of an array.
-/

namespace KernelFront

/-- What follows the innermost type: an underscore, or a number between two underscores. -/
inductive Mark where
  | gap
  | number (n : Nat)
  deriving DecidableEq, Repr

/-- What a symbol shows of a type. -/
structure Shadow where
  /-- How many dtypes are around the rest. -/
  dtypes : Nat
  /-- The innermost type. -/
  root : Ty
  /-- What follows the innermost type, from the inside to the outside. -/
  marks : List Mark
  deriving DecidableEq, Repr

/-- The shadow of a type around a type with this shadow. -/
def Shadow.around (shadow : Shadow) (marks : List Mark) : Shadow :=
  { shadow with marks := shadow.marks ++ marks }

/-- The marks of an array: two for an axis and one more between two axes, and the `1` of a
contiguous innermost dimension. -/
def Layout.marks (layout : Layout) : List Mark :=
  match layout.ndim with
  | 0 => [.gap, .gap]
  | n + 1 =>
      if layout.innerContig then List.replicate (3 * n + 2) .gap ++ [.number 1]
      else List.replicate (3 * n + 3) .gap

namespace Ty

/-- What a symbol shows of a type. -/
def shadow : Ty → Shadow
  | .pointer base => base.shadow.around [.gap]
  | .array elem layout => elem.shadow.around layout.marks
  | .carray base size => base.shadow.around [.number size]
  | .dtype base => { base.shadow.around [.gap] with dtypes := base.shadow.dtypes + 1 }
  | .tuple size _ => ⟨0, .tuple size none, []⟩
  | .list size _ => ⟨0, .list size none, []⟩
  | ty => ⟨0, ty, []⟩

/-- Whether no name of a module, attribute, builtin or global and no function type is part of the
type. -/
def isNameless : Ty → Bool
  | .pointer base | .array base _ | .carray base _ | .dtype base => base.isNameless
  | .module _ _ | .moduleAttribute _ _ _ | .builtin _ | .global _ | .function _ _ => false
  | _ => true

/-- Whether the type has no parts, no name and no recorded constants. -/
def isBare : Ty → Bool
  | .pointer _ | .array _ _ | .carray _ _ | .dtype _ | .module _ _ | .moduleAttribute _ _ _
  | .builtin _ | .global _ | .function _ _ => false
  | .tuple _ value | .list _ value => value.isNone
  | _ => true

/-- Whether the type is bare, or one level around a bare type: a pointer, an array with axes that is
contiguous as a whole if it is in its innermost dimension, an array of fixed size, or a dtype. -/
def isPlain : Ty → Bool
  | .pointer base | .carray base _ | .dtype base => base.isBare
  | .array elem layout =>
      elem.isBare && layout.ndim ≠ 0 && layout.cContig = layout.innerContig
  | ty => ty.isBare

theorem isBare_root : ∀ ty : Ty, ty.isNameless → ty.shadow.root.isBare
  | .pointer base, h | .array base _, h | .carray base _, h | .dtype base, h => isBare_root base h
  | .tuple _ _, _ | .list _ _, _ | .bool, _ | .int _ _, _ | .float _, _ | .complex _, _
  | .range, _ | .slice, _ | .ellipsis, _ | .newAxis, _ | .object, _ | .void, _ => rfl

end Ty

/-! ## The characters of a symbol -/

/-- A text with an underscore in the place of every character that a symbol may not hold. -/
def symbolChars (text : String) : List Char :=
  text.toList.map fun c => if isSymbolChar c then c else '_'

theorem symbolChars_append (first second : String) :
    symbolChars (first ++ second) = symbolChars first ++ symbolChars second := by
  rw [symbolChars, String.toList_append, List.map_append, symbolChars, symbolChars]

theorem mangle_eq (name : String) (args : List Ty) :
    mangle name args =
      name ++ "_" ++ String.ofList (args.flatMap fun arg => '_' :: symbolChars arg.text) :=
  rfl

/-- The digits of a number. -/
def digits (n : Nat) : List Char := n.repr.toList

theorem isDigit_of_mem {n : Nat} {c : Char} (hmem : c ∈ digits n) : c.isDigit := by
  rw [digits, Nat.toList_repr] at hmem
  exact Nat.isDigit_of_mem_toDigits (by decide) (by decide) hmem

theorem digits_inj {n k : Nat} (hsame : digits n = digits k) : n = k := by
  rw [digits, digits, Nat.toList_repr, Nat.toList_repr] at hsame
  simpa using congrArg (fun chars => Nat.ofDigitChars 10 chars 0) hsame

theorem digits_ne_nil (n : Nat) : digits n ≠ [] := by
  rw [digits, Nat.toList_repr]
  exact Nat.toDigits_ne_nil

theorem symbolChars_toString (n : Nat) : symbolChars (toString n) = digits n := by
  rw [Nat.toString_eq_repr, symbolChars, digits]
  refine (List.map_congr_left fun c hmem => ?_).trans (List.map_id _)
  have hdigit : c.isDigit := isDigit_of_mem hmem
  simp [isSymbolChar, Char.isAlphanum, hdigit]

/-- What a mark looks like. -/
def Mark.chars : Mark → List Char
  | .gap => ['_']
  | .number n => '_' :: digits n ++ ['_']

/-- The word that a bare type is printed with, and its width if it has one. -/
def Ty.stem : Ty → String × Option Nat
  | .bool => ("bool", none)
  | .int true bits => ("int", some bits)
  | .int false bits => ("uint", some bits)
  | .float bits => ("float", some bits)
  | .complex bits => ("complex", some (bits * 2))
  | .tuple _ _ => ("tuple", none)
  | .list _ _ => ("list", none)
  | .range => ("range", none)
  | .slice => ("slice", none)
  | .ellipsis => ("ellipsis", none)
  | .newAxis => ("newaxis", none)
  | .object => ("object", none)
  | .void => ("void", none)
  | _ => ("", none)

/-- The marks that a bare type has itself. -/
def Ty.ownMarks : Ty → List Mark
  | .tuple size _ | .list size _ => [.number size]
  | _ => []

/-- What a shadow looks like. -/
def Shadow.chars (shadow : Shadow) : List Char :=
  (List.replicate shadow.dtypes "dtype_".toList).flatten ++ shadow.root.stem.1.toList ++
    (shadow.root.stem.2.elim [] digits) ++
    (shadow.root.ownMarks ++ shadow.marks).flatMap Mark.chars

theorem symbolChars_text_of_isBare {ty : Ty} (hbare : ty.isBare) :
    symbolChars ty.text = Shadow.chars ⟨0, ty, []⟩ := by
  cases ty with
  | int signed bits =>
      cases signed <;> simp only [Ty.text, symbolChars_append, symbolChars_toString] <;>
        simp [Shadow.chars, Ty.stem, Ty.ownMarks] <;> rfl
  | float bits | complex bits =>
      simp only [Ty.text, symbolChars_append, symbolChars_toString]
      simp [Shadow.chars, Ty.stem, Ty.ownMarks]
      rfl
  | tuple size value | list size value =>
      simp only [Ty.text, symbolChars_append, symbolChars_toString]
      simp [Shadow.chars, Ty.stem, Ty.ownMarks, Mark.chars]
      rfl
  | pointer | array | carray | dtype | module | moduleAttribute | builtin | global | function =>
      cases hbare
  | _ => rfl

theorem Shadow.chars_around (shadow : Shadow) (marks : List Mark) :
    (shadow.around marks).chars = shadow.chars ++ marks.flatMap Mark.chars := by
  simp [chars, around, List.flatMap_append]

theorem Shadow.chars_dtype (shadow : Shadow) :
    Shadow.chars { shadow with dtypes := shadow.dtypes + 1 } = "dtype_".toList ++ shadow.chars := by
  simp [chars, List.replicate_succ]

theorem flatMap_gaps (count : Nat) :
    (List.replicate count Mark.gap).flatMap Mark.chars = List.replicate count '_' := by
  induction count with
  | zero => rfl
  | succ count ih => rw [List.replicate_succ, List.flatMap_cons, ih, List.replicate_succ]; rfl

/-- All axes but the last are three characters long, the separator included. -/
theorem symbolChars_axes (n : Nat) (last : String) :
    symbolChars (Text.joinWith ", " (List.replicate n ":" ++ [last])) =
      List.replicate (3 * n) '_' ++ symbolChars last := by
  induction n with
  | zero => simp [Text.joinWith]
  | succ n ih =>
      obtain ⟨axis, axes, haxes⟩ := List.exists_cons_of_ne_nil
        (List.append_ne_nil_of_right_ne_nil (List.replicate n ":") (List.cons_ne_nil last []))
      rw [haxes, Text.joinWith] at ih
      rw [List.replicate_succ, List.cons_append, haxes, Text.joinWith,
        String.intercalate_cons_cons, symbolChars_append, symbolChars_append, ih,
        ← List.append_assoc]
      rfl

theorem symbolChars_layout (layout : Layout) :
    symbolChars ("[" ++ Text.joinWith ", " layout.axes ++ "]") =
      layout.marks.flatMap Mark.chars := by
  obtain ⟨ndim, cContig, innerContig⟩ := layout
  cases ndim with
  | zero =>
      rw [symbolChars_append, symbolChars_append, Layout.axes, Layout.marks]
      simp only [Text.joinWith, String.intercalate_nil]
      rfl
  | succ n =>
      rw [symbolChars_append, symbolChars_append, Layout.axes, Layout.marks]
      simp only [symbolChars_axes]
      have hends : List.replicate (3 * n + 2) '_' = '_' :: List.replicate (3 * n) '_' ++ ['_'] := by
        rw [List.replicate_succ', List.replicate_succ]
      have hmark : symbolChars "[" = ['_'] ∧ symbolChars "]" = ['_'] ∧ symbolChars ":" = ['_'] ∧
          symbolChars "::1" = ['_', '_', '1'] := by decide +kernel
      obtain ⟨hopen, hclose, haxis, hlast⟩ := hmark
      cases innerContig with
      | true =>
          simp only [if_true, hopen, hclose, hlast, List.flatMap_append, flatMap_gaps]
          rw [hends]
          simp [Mark.chars]
          decide +kernel
      | false =>
          simp only [Bool.false_eq_true, if_false, hopen, hclose, haxis, flatMap_gaps]
          rw [List.replicate_succ', hends]
          simp

/-- A symbol shows of a nameless type exactly its shadow. -/
theorem symbolChars_text : ∀ ty : Ty, ty.isNameless → symbolChars ty.text = ty.shadow.chars
  | .pointer base, h => by
      rw [Ty.text, symbolChars_append, symbolChars_text base h, Ty.shadow, Shadow.chars_around]
      rfl
  | .array elem layout, h => by
      rw [Ty.text, String.append_assoc, String.append_assoc, symbolChars_append,
        symbolChars_text elem h, ← String.append_assoc, symbolChars_layout, Ty.shadow,
        Shadow.chars_around]
  | .carray base size, h => by
      rw [Ty.text, symbolChars_append, symbolChars_append, symbolChars_append,
        symbolChars_text base h, symbolChars_toString, Ty.shadow, Shadow.chars_around]
      have hbracket : symbolChars "[" = ['_'] ∧ symbolChars "]" = ['_'] := by decide +kernel
      simp [hbracket, Mark.chars]
  | .dtype base, h => by
      rw [Ty.text, symbolChars_append, symbolChars_append, symbolChars_text base h, Ty.shadow]
      have hword : symbolChars "dtype(" = "dtype_".toList ∧ symbolChars ")" = ['_'] := by
        decide +kernel
      refine Eq.trans ?_ (Shadow.chars_dtype (base.shadow.around [.gap])).symm
      rw [Shadow.chars_around, hword.1, hword.2, List.append_assoc]
      rfl
  | .tuple size value, _ => @symbolChars_text_of_isBare (.tuple size none) rfl
  | .list size value, _ => @symbolChars_text_of_isBare (.list size none) rfl
  | .bool, _ | .int _ _, _ | .float _, _ | .complex _, _ | .range, _ | .slice, _ | .ellipsis, _
  | .newAxis, _ | .object, _ | .void, _ => symbolChars_text_of_isBare rfl

/-! ## A symbol can be read back -/

/-- Where a word ends is determined by the character that follows it. -/
theorem append_unique {test : Char → Bool} {word other rest tail : List Char}
    (hword : ∀ c ∈ word, test c) (hother : ∀ c ∈ other, test c)
    (hrest : ∀ c ∈ rest.head?, test c = false) (htail : ∀ c ∈ tail.head?, test c = false)
    (hsame : word ++ rest = other ++ tail) : word = other ∧ rest = tail := by
  have htake : ∀ {text : List Char}, (∀ c ∈ text.head?, test c = false) →
      text.takeWhile test = [] := by
    intro text htext
    cases text with
    | nil => rfl
    | cons c text => simp [htext c rfl]
  have hwords := congrArg (List.takeWhile test) hsame
  rw [List.takeWhile_append_of_pos hword, List.takeWhile_append_of_pos hother, htake hrest,
    htake htail, List.append_nil, List.append_nil] at hwords
  exact ⟨hwords, List.append_cancel_left (hwords ▸ hsame)⟩

/-- The rest of a symbol after an argument type: the next one begins with an underscore and a
letter. -/
inductive NextArg : List Char → Prop where
  | none : NextArg []
  | some {c : Char} {rest : List Char} (hletter : c.isAlpha) : NextArg ('_' :: c :: rest)

/-- What follows a word begins with an underscore. -/
def Gapped (text : List Char) : Prop := ∀ c ∈ text.head?, c = '_'

theorem NextArg.gapped {rest : List Char} (hnext : NextArg rest) : Gapped rest := by
  intro c hc
  cases hnext with
  | none => cases hc
  | some => exact (Option.some.inj hc).symm

theorem gapped_marks {marks : List Mark} {rest : List Char} (hrest : Gapped rest) :
    Gapped (marks.flatMap Mark.chars ++ rest) := by
  cases marks with
  | nil => exact hrest
  | cons mark marks =>
      intro c hc
      cases mark <;> exact (Option.some.inj hc).symm

theorem Gapped.test_eq_false {text : List Char} (hgapped : Gapped text) {test : Char → Bool}
    (htest : test '_' = false) : ∀ c ∈ text.head?, test c = false := by
  intro c hc
  rw [hgapped c hc, htest]

theorem exists_digit (n : Nat) : ∃ c rest, digits n = c :: rest ∧ c.isDigit := by
  obtain ⟨c, rest, hdigits⟩ := List.exists_cons_of_ne_nil (digits_ne_nil n)
  exact ⟨c, rest, hdigits, isDigit_of_mem (hdigits ▸ List.mem_cons_self)⟩

theorem not_gapped_digits (n : Nat) (rest : List Char) : ¬ Gapped (digits n ++ rest) := by
  obtain ⟨c, more, hdigits, hdigit⟩ := exists_digit n
  intro hgapped
  rw [hdigits] at hgapped
  rw [hgapped c rfl] at hdigit
  cases hdigit

theorem not_isAlpha_of_isDigit {c : Char} (hdigit : c.isDigit) : c.isAlpha = false := by
  rw [Bool.eq_false_iff]
  intro hletter
  delta Char.isAlpha Char.isUpper Char.isLower at hletter
  simp only [Char.isDigit, Bool.and_eq_true, Bool.or_eq_true, decide_eq_true_eq, ge_iff_le,
    UInt32.le_iff_toNat_le] at hdigit hletter
  have hupper : 'A'.val.toNat = 65 := rfl
  have hlower : 'a'.val.toNat = 97 := rfl
  have hnine : '9'.val.toNat = 57 := rfl
  omega

theorem gap_append (text : List Char) : Mark.gap.chars ++ text = '_' :: text := rfl

theorem number_append (n : Nat) (text : List Char) :
    (Mark.number n).chars ++ text = '_' :: (digits n ++ '_' :: text) := by
  simp [Mark.chars]

/-- A mark is not the beginning of an argument type. -/
theorem not_nextArg_marks {mark : Mark} {marks : List Mark} {rest : List Char}
    (hrest : Gapped rest) : ¬ NextArg ((mark :: marks).flatMap Mark.chars ++ rest) := by
  intro hnext
  rw [List.flatMap_cons, List.append_assoc] at hnext
  cases mark with
  | gap =>
      have hgapped : Gapped (marks.flatMap Mark.chars ++ rest) := gapped_marks hrest
      generalize marks.flatMap Mark.chars ++ rest = text at hnext hgapped
      cases hnext with
      | some hletter =>
          rw [hgapped _ rfl] at hletter
          cases hletter
  | number n =>
      obtain ⟨c, more, hdigits, hdigit⟩ := exists_digit n
      simp only [Mark.chars, hdigits, List.cons_append] at hnext
      cases hnext with
      | some hletter => simp [not_isAlpha_of_isDigit hdigit] at hletter

/-- Marks and what follows them can be told apart. -/
theorem marks_unique {marks other : List Mark} {rest tail : List Char} (hrest : NextArg rest)
    (htail : NextArg tail)
    (hsame : marks.flatMap Mark.chars ++ rest = other.flatMap Mark.chars ++ tail) :
    marks = other ∧ rest = tail := by
  induction marks generalizing other with
  | nil =>
      cases other with
      | nil => exact ⟨rfl, hsame⟩
      | cons mark other =>
          rw [List.flatMap_nil, List.nil_append] at hsame
          exact absurd (hsame ▸ hrest) (not_nextArg_marks htail.gapped)
  | cons mark marks ih =>
      cases other with
      | nil =>
          rw [List.flatMap_nil, List.nil_append] at hsame
          exact absurd (hsame ▸ htail) (not_nextArg_marks hrest.gapped)
      | cons mark' other =>
          rw [List.flatMap_cons, List.flatMap_cons, List.append_assoc, List.append_assoc] at hsame
          have hmarks : Gapped (marks.flatMap Mark.chars ++ rest) := gapped_marks hrest.gapped
          have hother : Gapped (other.flatMap Mark.chars ++ tail) := gapped_marks htail.gapped
          cases mark with
          | gap =>
              cases mark' with
              | gap =>
                  obtain ⟨rfl, hrests⟩ := ih (List.cons.inj hsame).2
                  exact ⟨rfl, hrests⟩
              | number k =>
                  rw [gap_append, number_append] at hsame
                  rw [(List.cons.inj hsame).2] at hmarks
                  exact absurd hmarks (not_gapped_digits k _)
          | number n =>
              cases mark' with
              | gap =>
                  rw [gap_append, number_append] at hsame
                  rw [← (List.cons.inj hsame).2] at hother
                  exact absurd hother (not_gapped_digits n _)
              | number k =>
                  rw [number_append, number_append] at hsame
                  have hends (text : List Char) :
                      ∀ c ∈ ('_' :: text).head?, c.isDigit = false := by
                    intro c hc
                    cases hc
                    rfl
                  obtain ⟨hnumber, hrests⟩ := append_unique (fun c => isDigit_of_mem)
                    (fun c => isDigit_of_mem) (hends _) (hends _) (List.cons.inj hsame).2
                  obtain ⟨rfl, hlast⟩ := ih (List.cons.inj hrests).2
                  rw [digits_inj hnumber]
                  exact ⟨rfl, hlast⟩

/-! ## Bare types -/

/-- The words that bare types are printed with. -/
def Ty.words : List String :=
  ["bool", "int", "uint", "float", "complex", "tuple", "list", "range", "slice", "ellipsis",
    "newaxis", "object", "void"]

theorem stem_mem_words {root : Ty} (hbare : root.isBare) : root.stem.1 ∈ Ty.words := by
  cases root with
  | int signed bits => cases signed <;> simp [Ty.stem, Ty.words]
  | pointer | array | carray | dtype | module | moduleAttribute | builtin | global | function =>
      cases hbare
  | _ => simp [Ty.stem, Ty.words]

/-- The words have only letters, and none of them is the one for dtypes. -/
theorem spelled_of_mem_words :
    ∀ word ∈ Ty.words, word.toList.all Char.isAlpha ∧ word ≠ "" ∧ word ≠ "dtype" := by
  decide +kernel

/-- Read a bare type back from its word, its width and all marks that follow. -/
def readRoot : String × Option Nat → List Mark → Option (Ty × List Mark)
  | ("bool", none), marks => some (.bool, marks)
  | ("int", some bits), marks => some (.int true bits, marks)
  | ("uint", some bits), marks => some (.int false bits, marks)
  | ("float", some bits), marks => some (.float bits, marks)
  | ("complex", some bits), marks => some (.complex (bits / 2), marks)
  | ("tuple", none), .number size :: marks => some (.tuple size none, marks)
  | ("list", none), .number size :: marks => some (.list size none, marks)
  | ("range", none), marks => some (.range, marks)
  | ("slice", none), marks => some (.slice, marks)
  | ("ellipsis", none), marks => some (.ellipsis, marks)
  | ("newaxis", none), marks => some (.newAxis, marks)
  | ("object", none), marks => some (.object, marks)
  | ("void", none), marks => some (.void, marks)
  | _, _ => none

theorem readRoot_stem {root : Ty} (hbare : root.isBare) (marks : List Mark) :
    readRoot root.stem (root.ownMarks ++ marks) = some (root, marks) := by
  cases root with
  | int signed bits => cases signed <;> simp [Ty.stem, Ty.ownMarks, readRoot]
  | tuple size value | list size value =>
      obtain rfl := Option.isNone_iff_eq_none.mp hbare
      simp [Ty.stem, Ty.ownMarks, readRoot]
  | pointer | array | carray | dtype | module | moduleAttribute | builtin | global | function =>
      cases hbare
  | _ => simp [Ty.stem, Ty.ownMarks, readRoot]

/-- A bare type is determined by its word, its width and the marks that it has itself. -/
theorem root_unique {root other : Ty} {marks more : List Mark} (hbare : root.isBare)
    (hother : other.isBare) (hstem : root.stem = other.stem)
    (hmarks : root.ownMarks ++ marks = other.ownMarks ++ more) : root = other ∧ marks = more := by
  have hread := readRoot_stem hbare marks
  rw [hstem, hmarks, readRoot_stem hother] at hread
  cases hread
  exact ⟨rfl, rfl⟩

/-! ## Shadows and lists of shadows -/

theorem isDigit_of_width {width : Option Nat} {c : Char} (hmem : c ∈ width.elim [] digits) :
    c.isDigit := by
  cases width with
  | none => cases hmem
  | some n => exact isDigit_of_mem hmem

theorem width_inj {width other : Option Nat} (hsame : width.elim [] digits = other.elim [] digits) :
    width = other := by
  cases width <;> cases other
  · rfl
  · exact absurd hsame.symm (digits_ne_nil _)
  · exact absurd hsame (digits_ne_nil _)
  · rw [digits_inj hsame]

/-- A word ends where its width or what is around the type begins. -/
theorem not_isAlpha_of_width (width : Option Nat) {rest : List Char} (hrest : Gapped rest) :
    ∀ c ∈ (width.elim [] digits ++ rest).head?, c.isAlpha = false := by
  intro c hc
  cases width with
  | none =>
      rw [hrest c hc]
      rfl
  | some n =>
      obtain ⟨digit, more, hdigits, hdigit⟩ := exists_digit n
      rw [Option.elim_some, hdigits] at hc
      cases hc
      exact not_isAlpha_of_isDigit hdigit

theorem isAlpha_of_mem_words {word : String} (hword : word ∈ Ty.words) {c : Char}
    (hmem : c ∈ word.toList) : c.isAlpha :=
  List.all_eq_true.mp (spelled_of_mem_words word hword).1 c hmem

theorem Shadow.chars_zero_append (root : Ty) (marks : List Mark) (rest : List Char) :
    Shadow.chars ⟨0, root, marks⟩ ++ rest = root.stem.1.toList ++
      (root.stem.2.elim [] digits ++ ((root.ownMarks ++ marks).flatMap Mark.chars ++ rest)) := by
  simp [chars]

theorem Shadow.chars_succ_append (dtypes : Nat) (root : Ty) (marks : List Mark)
    (rest : List Char) : Shadow.chars ⟨dtypes + 1, root, marks⟩ ++ rest =
      "dtype".toList ++ '_' :: (Shadow.chars ⟨dtypes, root, marks⟩ ++ rest) := by
  rw [Shadow.chars_dtype ⟨dtypes, root, marks⟩, List.append_assoc]
  rfl

/-- A word of a bare type is not taken for the one of a dtype. -/
theorem chars_zero_ne_succ {root other : Ty} {marks more : List Mark} {dtypes : Nat}
    {rest tail : List Char} (hbare : root.isBare) (hrest : Gapped rest) :
    Shadow.chars ⟨0, root, marks⟩ ++ rest ≠ Shadow.chars ⟨dtypes + 1, other, more⟩ ++ tail := by
  intro hsame
  have hword := stem_mem_words hbare
  rw [Shadow.chars_zero_append, Shadow.chars_succ_append] at hsame
  have hgap : ∀ c ∈ ('_' :: (Shadow.chars ⟨dtypes, other, more⟩ ++ tail)).head?,
      c.isAlpha = false := by
    intro c hc
    cases hc
    rfl
  have hdtype : ∀ c ∈ "dtype".toList, c.isAlpha := List.all_eq_true.mp (by decide +kernel)
  obtain ⟨hstem, _⟩ := append_unique (fun c => isAlpha_of_mem_words hword) hdtype
    (not_isAlpha_of_width _ (gapped_marks hrest)) hgap hsame
  exact (spelled_of_mem_words _ hword).2.2 (String.toList_injective hstem)

/-- A shadow and what follows it can be told apart. -/
theorem shadow_unique {shadow other : Shadow} {rest tail : List Char}
    (hbare : shadow.root.isBare) (hother : other.root.isBare) (hrest : NextArg rest)
    (htail : NextArg tail) (hsame : shadow.chars ++ rest = other.chars ++ tail) :
    shadow = other ∧ rest = tail := by
  obtain ⟨dtypes, root, marks⟩ := shadow
  obtain ⟨dtypes', root', marks'⟩ := other
  induction dtypes generalizing dtypes' with
  | zero =>
      cases dtypes' with
      | zero =>
          rw [Shadow.chars_zero_append, Shadow.chars_zero_append] at hsame
          have hgapped : ∀ {more : List Mark} {text : List Char}, NextArg text →
              Gapped (more.flatMap Mark.chars ++ text) := fun hnext => gapped_marks hnext.gapped
          obtain ⟨hword, hwidths⟩ := append_unique
            (fun c => isAlpha_of_mem_words (stem_mem_words hbare))
            (fun c => isAlpha_of_mem_words (stem_mem_words hother))
            (not_isAlpha_of_width _ (hgapped hrest)) (not_isAlpha_of_width _ (hgapped htail)) hsame
          obtain ⟨hwidth, hmarks⟩ := append_unique (fun c => isDigit_of_width)
            (fun c => isDigit_of_width) ((hgapped hrest).test_eq_false rfl)
            ((hgapped htail).test_eq_false rfl) hwidths
          obtain ⟨hown, hrests⟩ := marks_unique hrest htail hmarks
          have hstem := Prod.ext (String.toList_injective hword) (width_inj hwidth)
          obtain ⟨rfl, rfl⟩ := root_unique hbare hother hstem hown
          exact ⟨rfl, hrests⟩
      | succ dtypes' => exact absurd hsame (chars_zero_ne_succ hbare hrest.gapped)
  | succ dtypes ih =>
      cases dtypes' with
      | zero => exact absurd hsame.symm (chars_zero_ne_succ hother htail.gapped)
      | succ dtypes' =>
          rw [Shadow.chars_succ_append, Shadow.chars_succ_append] at hsame
          have hinner := (List.cons.inj (List.append_cancel_left hsame)).2
          obtain ⟨hshadow, hrests⟩ := ih hbare dtypes' hother hinner
          cases hshadow
          exact ⟨rfl, hrests⟩

theorem exists_letter {shadow : Shadow} (hbare : shadow.root.isBare) :
    ∃ c rest, shadow.chars = c :: rest ∧ c.isAlpha := by
  obtain ⟨dtypes, root, marks⟩ := shadow
  cases dtypes with
  | zero =>
      have hword := stem_mem_words hbare
      have hchars := Shadow.chars_zero_append root marks []
      rw [List.append_nil] at hchars
      cases hletters : root.stem.1.toList with
      | nil =>
          exact absurd (String.toList_eq_nil_iff.mp hletters) (spelled_of_mem_words _ hword).2.1
      | cons c letters =>
          have hletter : c.isAlpha := isAlpha_of_mem_words hword (by simp [hletters])
          rw [hletters] at hchars
          exact ⟨c, _, hchars, hletter⟩
  | succ dtypes =>
      have hchars := Shadow.chars_succ_append dtypes root marks []
      rw [List.append_nil] at hchars
      exact ⟨'d', _, hchars, rfl⟩

theorem nextArg_shadows {shadows : List Shadow} (hbare : ∀ shadow ∈ shadows, shadow.root.isBare) :
    NextArg (shadows.flatMap fun shadow => '_' :: shadow.chars) := by
  cases shadows with
  | nil => exact .none
  | cons shadow shadows =>
      obtain ⟨c, rest, hchars, hletter⟩ := exists_letter (hbare shadow List.mem_cons_self)
      rw [List.flatMap_cons, hchars]
      exact .some hletter

/-- A list of shadows can be read back from what it looks like. -/
theorem shadows_unique {shadows others : List Shadow}
    (hbare : ∀ shadow ∈ shadows, shadow.root.isBare)
    (hothers : ∀ shadow ∈ others, shadow.root.isBare)
    (hsame : (shadows.flatMap fun shadow => '_' :: shadow.chars) =
      others.flatMap fun shadow => '_' :: shadow.chars) : shadows = others := by
  induction shadows generalizing others with
  | nil =>
      cases others with
      | nil => rfl
      | cons other others => simp at hsame
  | cons shadow shadows ih =>
      cases others with
      | nil => simp at hsame
      | cons other others =>
          obtain ⟨hfirst, hrest⟩ := List.forall_mem_cons.mp hbare
          obtain ⟨hfirst', hrest'⟩ := List.forall_mem_cons.mp hothers
          rw [List.flatMap_cons, List.flatMap_cons, List.cons_append, List.cons_append] at hsame
          obtain ⟨rfl, hrests⟩ := shadow_unique hfirst hfirst' (nextArg_shadows hrest)
            (nextArg_shadows hrest') (List.cons.inj hsame).2
          rw [ih hrest hrest' hrests]

/-! ## Symbols of argument types -/

theorem flatMap_symbolChars {args : List Ty} (hnameless : ∀ arg ∈ args, arg.isNameless) :
    (args.flatMap fun arg => '_' :: symbolChars arg.text) =
      (args.map Ty.shadow).flatMap fun shadow => '_' :: shadow.chars := by
  induction args with
  | nil => rfl
  | cons arg args ih =>
      obtain ⟨hfirst, hrest⟩ := List.forall_mem_cons.mp hnameless
      rw [List.flatMap_cons, List.map_cons, List.flatMap_cons, ih hrest,
        symbolChars_text arg hfirst]

theorem shadow_of_isBare {ty : Ty} (hbare : ty.isBare) : ty.shadow = ⟨0, ty, []⟩ := by
  cases ty with
  | tuple size value | list size value =>
      obtain rfl := Option.isNone_iff_eq_none.mp hbare
      rfl
  | pointer | array | carray | dtype | module | moduleAttribute | builtin | global | function =>
      cases hbare
  | _ => rfl

/-- Read a plain type back from its shadow. -/
def readPlain (shadow : Shadow) : Ty :=
  match shadow.marks with
  | [] => shadow.root
  | [.gap] => if shadow.dtypes = 0 then .pointer shadow.root else .dtype shadow.root
  | [.number size] => .carray shadow.root size
  | marks =>
      let contiguous := marks.getLast? = some (.number 1)
      .array shadow.root ⟨marks.length / 3, contiguous, contiguous⟩

theorem readPlain_shadow {ty : Ty} (hplain : ty.isPlain) : readPlain ty.shadow = ty := by
  cases ty with
  | pointer base | carray base size | dtype base =>
      rw [Ty.shadow, @shadow_of_isBare base hplain]
      rfl
  | array elem layout =>
      obtain ⟨ndim, cContig, innerContig⟩ := layout
      simp only [Ty.isPlain, Bool.and_eq_true, decide_eq_true_eq] at hplain
      obtain ⟨⟨hbare, hndim⟩, rfl⟩ := hplain
      obtain ⟨n, rfl⟩ := Nat.exists_eq_succ_of_ne_zero hndim
      rw [Ty.shadow, shadow_of_isBare hbare]
      have hlength : (3 * n + 3) / 3 = n + 1 := by omega
      cases cContig with
      | true =>
          have hlast : (Mark.gap :: .gap :: (List.replicate (3 * n) .gap ++ [.number 1])).getLast? =
              some (.number 1) := by
            rw [← List.cons_append, ← List.cons_append, List.getLast?_concat]
          simp [readPlain, Shadow.around, Layout.marks, List.replicate_succ, hlength, hlast]
      | false =>
          have hlast : (Mark.gap :: List.replicate (3 * n) .gap).getLast? = some .gap := by
            rw [← List.replicate_succ, List.getLast?_replicate, if_neg (Nat.succ_ne_zero _)]
          simp [readPlain, Shadow.around, Layout.marks, List.replicate_succ, hlength, hlast]
  | _ =>
      refine (congrArg readPlain (shadow_of_isBare ?_)).trans rfl
      exact hplain

theorem map_readPlain {args : List Ty} (hplain : ∀ arg ∈ args, arg.isPlain) :
    (args.map Ty.shadow).map readPlain = args := by
  rw [List.map_map]
  exact (List.map_congr_left fun arg hmem => readPlain_shadow (hplain arg hmem)).trans
    (List.map_id args)

theorem isBare_of_mem_shadows {args : List Ty} (hnameless : ∀ arg ∈ args, arg.isNameless) :
    ∀ shadow ∈ args.map Ty.shadow, shadow.root.isBare := by
  intro shadow hmem
  obtain ⟨arg, harg, rfl⟩ := List.mem_map.mp hmem
  exact Ty.isBare_root arg (hnameless arg harg)

/-- Whatever the argument types without names are, the symbols of a function for two lists of them
are the same exactly if the lists have the same shadows. So different lists of plain types have
different symbols. -/
theorem mangle_eq_iff_shadow (name : String) {args others : List Ty}
    (hargs : ∀ arg ∈ args, arg.isNameless) (hothers : ∀ arg ∈ others, arg.isNameless) :
    (mangle name args = mangle name others ↔ args.map Ty.shadow = others.map Ty.shadow) ∧
      ((∀ arg ∈ args, arg.isPlain) → (∀ arg ∈ others, arg.isPlain) →
        (mangle name args = mangle name others ↔ args = others)) := by
  have hiff : mangle name args = mangle name others ↔
      args.map Ty.shadow = others.map Ty.shadow := by
    rw [mangle_eq, mangle_eq, flatMap_symbolChars hargs, flatMap_symbolChars hothers]
    constructor
    · intro hsame
      have hchars := String.ofList_injective ((String.append_right_inj _).mp hsame)
      exact shadows_unique (isBare_of_mem_shadows hargs) (isBare_of_mem_shadows hothers) hchars
    · intro hsame
      rw [hsame]
  refine ⟨hiff, fun hplain hplain' => hiff.trans ⟨fun hsame => ?_, fun hsame => by rw [hsame]⟩⟩
  rw [← map_readPlain hplain, hsame, map_readPlain hplain']

/-- Three levels of pointers have the symbol of one axis, while a strided axis and a contiguous one
are told apart. -/
theorem mangle_eq_iff_shadow_axis :
    mangle "f" [.pointer (.pointer (.pointer .float64)), .int64] =
        mangle "f" [.strided .float64 1, .int64] ∧
      mangle "f" [.strided .float64 1, .int64] ≠ mangle "f" [.contiguous .float64 1, .int64] := by
  constructor
  · exact (mangle_eq_iff_shadow "f" (by decide) (by decide)).1.mpr (by decide)
  · intro hsame
    have hargs := ((mangle_eq_iff_shadow "f" (by decide) (by decide)).2 (by decide) (by decide)).mp
      hsame
    exact absurd hargs (by decide)

/-- Different argument types may have one symbol: it does not show the constants of a tuple. -/
theorem mangle_not_injective :
    ¬ ∀ (name : String) (args others : List Ty), args ≠ others →
      mangle name args ≠ mangle name others := by
  intro hdistinct
  have hne : [Ty.tuple 2 (some [.int 1, .int 2])] ≠ [.tuple 2 (some [.int 3, .int 4])] := by decide
  exact hdistinct "g" _ _ hne rfl

end KernelFront
