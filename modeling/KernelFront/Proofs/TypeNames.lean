import KernelFront.Proofs.Linking
import KernelFront.Ty.Parser

/-! # Names of types

The types that a user can write are pointers to scalars, to arrays and to arrays of fixed size, whose
elements are scalars or pointers to them. These are the types that reading gives, and each of them is
read back from the way it is printed, however it was written at first.
-/

namespace KernelFront

namespace Ty

/-- A scalar type that has a name. -/
def IsNamed (t : Ty) : Prop := ∃ name, ofName? name = some t

/-- A named type with any number of pointers around it. -/
inductive IsElement : Ty → Prop where
  | named {t : Ty} (hnamed : t.IsNamed) : IsElement t
  | pointer {base : Ty} (hbase : base.IsElement) : IsElement (.pointer base)

/-- A type that a user can write: any number of pointers around a named type, around an array with
axes that is contiguous as a whole if it is in its innermost dimension, or around an array of fixed
size. -/
inductive IsWritable : Ty → Prop where
  | named {t : Ty} (hnamed : t.IsNamed) : IsWritable t
  | array {elem : Ty} {layout : Layout} (helem : elem.IsElement) (haxes : 0 < layout.ndim)
      (hcontig : layout.cContig = layout.innerContig) : IsWritable (.array elem layout)
  | carray {elem : Ty} {size : Nat} (helem : elem.IsElement) (hsize : size < 0x10000000000000000) :
      IsWritable (.carray elem size)
  | pointer {base : Ty} (hbase : base.IsWritable) : IsWritable (.pointer base)

/-! ## What is read is writable -/

theorem isElement_of_elementOfReversed {cs : List Char} {t : Ty}
    (hread : elementOfReversed cs = some t) : t.IsElement := by
  induction cs generalizing t with
  | nil => cases hread
  | cons c rest ih =>
      rw [elementOfReversed] at hread
      split at hread
      · exact ih hread
      · split at hread
        · obtain ⟨base, hbase, rfl⟩ := Option.map_eq_some_iff.mp hread
          exact .pointer (ih hbase)
        · exact .named ⟨_, hread⟩

theorem lt_of_wordOfDigits {cs : List Char} {n : Nat} (hread : wordOfDigits? cs = some n) :
    n < 0x10000000000000000 := by
  simp only [wordOfDigits?, Option.ite_none_left_eq_some, Option.ite_none_right_eq_some,
    Option.some.injEq] at hread
  obtain ⟨-, hsmall, rfl⟩ := hread
  exact hsmall

/-- At least one axis is read, and the mark of the last one makes the whole array contiguous. -/
theorem axes_of_axesOfTexts {texts : List (List Char)} {layout : Layout}
    (hread : axesOfTexts? texts = some layout) :
    0 < layout.ndim ∧ layout.cContig = layout.innerContig := by
  induction texts generalizing layout with
  | nil => cases hread
  | cons axis axes ih =>
      cases axes with
      | nil =>
          rw [axesOfTexts?] at hread
          split at hread
          · cases hread
            exact ⟨Nat.one_pos, rfl⟩
          · split at hread <;> cases hread
            exact ⟨Nat.one_pos, rfl⟩
      | cons next axes =>
          rw [axesOfTexts?] at hread
          · split at hread
            · obtain ⟨inner, hinner, rfl⟩ := Option.map_eq_some_iff.mp hread
              exact ⟨Nat.succ_pos _, (ih hinner).2⟩
            · cases hread
          · exact nofun

theorem isWritable_of_ofBracketed {cs : List Char} {t : Ty} (hread : ofBracketed cs = .ok t) :
    t.IsWritable := by
  unfold ofBracketed at hread
  split at hread
  next =>
    split at hread
    next hname =>
      cases hread
      exact .named ⟨_, hname⟩
    next => cases hread
  next =>
    split at hread
    next => cases hread
    next =>
      split at hread
      next => cases hread
      next elem helem =>
        have helem := isElement_of_elementOfReversed helem
        split at hread
        next size hsize =>
          cases hread
          exact .carray helem (lt_of_wordOfDigits hsize)
        next =>
          split at hread
          next layout hlayout =>
            cases hread
            obtain ⟨haxes, hcontig⟩ := axes_of_axesOfTexts hlayout
            exact .array helem haxes hcontig
          next => cases hread

theorem isWritable_of_ofReversed {cs : List Char} {t : Ty} (hread : ofReversed cs = .ok t) :
    t.IsWritable := by
  induction cs generalizing t with
  | nil => cases hread
  | cons c rest ih =>
      rw [ofReversed] at hread
      split at hread
      · exact ih hread
      · split at hread
        · split at hread
          next base hbase =>
            cases hread
            exact .pointer (ih hbase)
          next => cases hread
        · exact isWritable_of_ofBracketed hread

/-! ## What is writable is read back -/

/-- A named type is printed as one of its names, in which no other part of a type begins. -/
theorem IsNamed.text {t : Ty} (hnamed : t.IsNamed) :
    ofName? t.text = some t ∧ t.text ≠ "" ∧
      ∀ c ∈ t.text.toList, Text.isSpace c = false ∧ c ≠ '*' ∧ c ≠ '[' := by
  suffices hall : ofName? t.text = some t ∧ t.text ≠ "" ∧
      (t.text.toList.all fun c => !Text.isSpace c && decide (c ≠ '*') && decide (c ≠ '[')) by
    simpa only [List.all_eq_true, Bool.and_eq_true, Bool.not_eq_true', decide_eq_true_eq,
      and_assoc] using hall
  obtain ⟨name, hname⟩ := hnamed
  unfold ofName? at hname
  split at hname <;> cases hname <;> decide +kernel

/-- The brackets of a type begin after its element. -/
theorem IsElement.notMem_text {t : Ty} (helement : t.IsElement) : '[' ∉ t.text.toList := by
  induction helement with
  | named hnamed => exact fun hmem => (hnamed.text.2.2 _ hmem).2.2 rfl
  | pointer _ ih =>
      rw [Ty.text, String.toList_append]
      simpa using ih

theorem text_pointer (base : Ty) :
    (pointer base).text.toList.reverse = '*' :: base.text.toList.reverse := by
  rw [Ty.text, String.toList_append, List.reverse_append]
  rfl

/-- A printed name begins with no white space and, read from its end, with no star. -/
theorem IsNamed.reversed {t : Ty} (hnamed : t.IsNamed) : ∃ c rest,
    t.text.toList.reverse = c :: rest ∧ Text.isSpace c = false ∧ c ≠ '*' ∧
      String.ofList (Text.trimStart (c :: rest).reverse) = t.text := by
  obtain ⟨-, hne, hchars⟩ := hnamed.text
  cases htext : t.text.toList.reverse with
  | nil => simp at htext; exact absurd htext hne
  | cons c rest =>
      have hc := hchars c (by rw [← List.mem_reverse, htext]; exact List.mem_cons_self)
      refine ⟨c, rest, rfl, hc.1, hc.2.1, ?_⟩
      rw [← htext, List.reverse_reverse, Text.trimStart]
      cases hfirst : t.text.toList with
      | nil => simp at hfirst; exact absurd hfirst hne
      | cons first others =>
          have hspace := (hchars first (hfirst ▸ List.mem_cons_self)).1
          rw [List.dropWhile_cons_of_neg (by simp [hspace]), ← hfirst, String.ofList_toList]

theorem IsElement.elementOfReversed {t : Ty} (helement : t.IsElement) :
    Ty.elementOfReversed t.text.toList.reverse = some t := by
  induction helement with
  | named hnamed =>
      obtain ⟨c, rest, htext, hspace, hstar, hname⟩ := hnamed.reversed
      rw [htext, Ty.elementOfReversed, if_neg (by simp [hspace]), if_neg hstar, hname]
      exact hnamed.text.1
  | pointer _ ih =>
      rw [text_pointer, Ty.elementOfReversed, if_neg (by decide), if_pos rfl, ih]
      rfl

theorem IsNamed.ofReversed {t : Ty} (hnamed : t.IsNamed) :
    Ty.ofReversed t.text.toList.reverse = .ok t := by
  obtain ⟨c, rest, htext, hspace, hstar, hname⟩ := hnamed.reversed
  have hopen : (c :: rest).reverse.dropWhile (· ≠ '[') = [] := by
    rw [← htext, List.reverse_reverse, ← List.append_nil t.text.toList]
    exact List.dropWhile_append_of_pos fun c hc => decide_eq_true (hnamed.text.2.2 c hc).2.2
  rw [htext, Ty.ofReversed, if_neg (by simp [hspace]), if_neg hstar, ofBracketed, hopen]
  simp only [hname, hnamed.text.1]

/-- Brackets are found behind the element, and what they hold decides what kind of array it is. -/
theorem IsElement.ofReversed_brackets {elem : Ty} (helem : elem.IsElement) (inner : List Char) :
    Ty.ofReversed (elem.text.toList ++ '[' :: (inner ++ [']'])).reverse =
      match wordOfDigits? (Text.trim inner) with
      | some size => .ok (.carray elem size)
      | none =>
          match axesOfTexts? ((Text.splitAt ',' inner).map Text.trim) with
          | some layout => .ok (.array elem layout)
          | none => .error .badAxes := by
  have hreversed : (elem.text.toList ++ '[' :: (inner ++ [']'])).reverse =
      ']' :: (elem.text.toList ++ '[' :: inner).reverse := by simp
  have helement : ∀ c ∈ elem.text.toList, decide (c ≠ '[') = true := fun c hc =>
    decide_eq_true fun hopen => helem.notMem_text (hopen ▸ hc)
  have hclose : (inner ++ [']']).getLast? = some ']' := by simp
  rw [hreversed, Ty.ofReversed, if_neg (by decide), if_neg (by decide), ← hreversed,
    List.reverse_reverse, ofBracketed, List.dropWhile_append_of_pos helement,
    List.takeWhile_append_of_pos helement, List.dropWhile_cons_of_neg (by decide),
    List.takeWhile_cons_of_neg (by decide), List.append_nil]
  cases hword : wordOfDigits? (Text.trim inner) with
  | some size =>
      simp only [hclose, ne_eq, not_true_eq_false, if_false, helem.elementOfReversed,
        List.dropLast_concat, hword]
  | none =>
      cases haxes : axesOfTexts? ((Text.splitAt ',' inner).map Text.trim) <;>
        simp only [hclose, ne_eq, not_true_eq_false, if_false, helem.elementOfReversed,
          List.dropLast_concat, hword, haxes]

/-! ### Sizes -/

theorem isSpace_of_isDigit {c : Char} (hdigit : c.isDigit) : Text.isSpace c = false := by
  simp only [Char.isDigit, Bool.and_eq_true, decide_eq_true_eq, ge_iff_le,
    UInt32.le_iff_toNat_le] at hdigit
  have hzero : '0'.val.toNat = 48 := rfl
  have hnine : '9'.val.toNat = 57 := rfl
  have hcode : c.toNat = c.val.toNat := rfl
  rw [Bool.eq_false_iff]
  intro hspace
  simp only [Text.isSpace, Bool.or_eq_true, Bool.and_eq_true, decide_eq_true_eq] at hspace
  omega

theorem trim_eq_self {text : List Char} (hspaces : ∀ c ∈ text, Text.isSpace c = false) :
    Text.trim text = text := by
  have hfront {cs : List Char} (hcs : ∀ c ∈ cs, Text.isSpace c = false) :
      cs.dropWhile Text.isSpace = cs := by
    cases cs with
    | nil => rfl
    | cons c rest => exact List.dropWhile_cons_of_neg (by simp [hcs c List.mem_cons_self])
  rw [Text.trim, Text.trimEnd, Text.trimStart, hfront hspaces,
    hfront fun c hc => hspaces c (List.mem_reverse.mp hc), List.reverse_reverse]

theorem wordOfDigits_digits {n : Nat} (hsmall : n < 0x10000000000000000) :
    wordOfDigits? (Text.trim (digits n)) = some n := by
  have hdigits : ∀ c ∈ digits n, c.isDigit := fun c hc => isDigit_of_mem hc
  rw [trim_eq_self fun c hc => isSpace_of_isDigit (hdigits c hc)]
  obtain ⟨first, rest, htext, hfirst⟩ := exists_digit n
  have hplus : first ≠ '+' := by
    rintro rfl
    cases hfirst
  have hvalue : (digits n).foldl (fun n c => 10 * n + (c.toNat - '0'.toNat)) 0 = n := by
    rw [digits, Nat.toList_repr]
    exact Nat.ofDigitChars_toDigits (by decide) (by decide)
  unfold wordOfDigits?
  split
  next hsome =>
    rw [htext] at hsome
    cases hsome
    exact absurd rfl hplus
  next =>
    have hall : (digits n).all Char.isDigit := List.all_eq_true.mpr hdigits
    have hsome : (digits n).isEmpty = false := by rw [htext]; rfl
    simp only [hvalue, hall, hsome, Bool.not_true, Bool.or_self, Bool.false_eq_true, if_false,
      hsmall, if_true]

/-! ### Axes -/

/-- White space at the end does not matter for what a text begins with. -/
theorem exists_trim_cons {c : Char} (hc : Text.isSpace c = false) (rest : List Char) :
    ∃ more, Text.trim (c :: rest) = c :: more := by
  rw [Text.trim, Text.trimStart, List.dropWhile_cons_of_neg (by simp [hc]), Text.trimEnd,
    List.reverse_cons, List.dropWhile_append]
  split
  · exact ⟨[], by simp [hc]⟩
  · exact ⟨_, List.reverse_concat⟩

theorem exists_splitAt (sep : Char) (text : List Char) :
    ∃ piece pieces, Text.splitAt sep text = piece :: pieces := by
  cases text with
  | nil => exact ⟨[], [], rfl⟩
  | cons c text =>
      rw [Text.splitAt]
      split
      · exact ⟨_, _, rfl⟩
      · split <;> exact ⟨_, _, rfl⟩

/-- The text of an axis, a comma and a blank in front of other axes is cut off. -/
theorem splitAt_axis (axes : List Char) :
    (Text.splitAt ',' (':' :: ',' :: ' ' :: axes)).map Text.trim =
      [':'] :: (Text.splitAt ',' axes).map Text.trim := by
  obtain ⟨piece, pieces, hpieces⟩ := exists_splitAt ',' axes
  have hblank : Text.trim (' ' :: piece) = Text.trim piece := rfl
  have hcut : Text.splitAt ',' (':' :: ',' :: ' ' :: axes) = [':'] :: (' ' :: piece) :: pieces := by
    simp [Text.splitAt, hpieces]
  rw [hcut, hpieces, List.map_cons, List.map_cons, List.map_cons, hblank]
  rfl

/-- The axes of an array as they are printed: those in front of the last one, then the last one. -/
theorem toList_axes (n : Nat) (last : String) :
    (Text.joinWith ", " (List.replicate (n + 1) ":" ++ [last])).toList =
      ':' :: ',' :: ' ' :: (Text.joinWith ", " (List.replicate n ":" ++ [last])).toList := by
  obtain ⟨axis, axes, haxes⟩ := List.exists_cons_of_ne_nil
    (List.append_ne_nil_of_right_ne_nil (List.replicate n ":") (List.cons_ne_nil last []))
  rw [List.replicate_succ, List.cons_append, haxes, Text.joinWith, Text.joinWith,
    String.intercalate_cons_cons, String.toList_append, String.toList_append]
  rfl

theorem axesOfTexts_axes (n : Nat) (contig : Bool) :
    axesOfTexts? ((Text.splitAt ','
      (Text.joinWith ", " (List.replicate n ":" ++ [if contig then "::1" else ":"])).toList).map
        Text.trim) = some ⟨n + 1, contig, contig⟩ := by
  induction n with
  | zero => cases contig <;> decide +kernel
  | succ n ih =>
      rw [toList_axes, splitAt_axis]
      obtain ⟨piece, pieces, hpieces⟩ := exists_splitAt ','
        (Text.joinWith ", " (List.replicate n ":" ++ [if contig then "::1" else ":"])).toList
      rw [hpieces, List.map_cons] at ih ⊢
      rw [axesOfTexts?, if_pos rfl, ih]
      · rfl
      · exact nofun

theorem wordOfDigits_axes (n : Nat) (contig : Bool) :
    wordOfDigits? (Text.trim
      (Text.joinWith ", " (List.replicate n ":" ++ [if contig then "::1" else ":"])).toList) =
        none := by
  cases n with
  | zero => cases contig <;> decide +kernel
  | succ n =>
      rw [toList_axes]
      obtain ⟨more, hmore⟩ := exists_trim_cons (c := ':') rfl
        (',' :: ' ' :: (Text.joinWith ", " (List.replicate n ":" ++
          [if contig then "::1" else ":"])).toList)
      rw [hmore]
      simp [wordOfDigits?]

/-! ### All types -/

theorem IsWritable.ofReversed {t : Ty} (hwritable : t.IsWritable) :
    Ty.ofReversed t.text.toList.reverse = .ok t := by
  induction hwritable with
  | named hnamed => exact hnamed.ofReversed
  | @array elem layout helem haxes hcontig =>
      obtain ⟨ndim, contig, inner⟩ := layout
      obtain rfl : contig = inner := hcontig
      obtain ⟨n, rfl⟩ := Nat.exists_eq_add_one.mpr haxes
      have htext : (Ty.array elem ⟨n + 1, contig, contig⟩).text.toList =
          elem.text.toList ++ '[' :: ((Text.joinWith ", " (List.replicate n ":" ++
            [if contig then "::1" else ":"])).toList ++ [']']) := by
        simp only [Ty.text, Layout.axes, String.toList_append]
        simp
      rw [htext, helem.ofReversed_brackets, wordOfDigits_axes, axesOfTexts_axes]
  | @carray elem size helem hsize =>
      have htext : (Ty.carray elem size).text.toList =
          elem.text.toList ++ '[' :: (digits size ++ [']']) := by
        rw [Ty.text, String.toList_append, String.toList_append, String.toList_append, digits]
        simp only [List.append_assoc]
        rfl
      rw [htext, helem.ofReversed_brackets, wordOfDigits_digits hsize]
  | pointer _ ih =>
      rw [text_pointer, Ty.ofReversed, if_neg (by decide), if_pos rfl, ih]

theorem IsWritable.parse_text {t : Ty} (hwritable : t.IsWritable) : parse t.text = .ok t := by
  rw [parse, hwritable.ofReversed]

theorem isWritable_of_parse {s : String} {t : Ty} (hread : parse s = .ok t) : t.IsWritable := by
  unfold parse at hread
  split at hread
  next hreversed =>
    cases hread
    exact isWritable_of_ofReversed hreversed
  next => cases hread

/-- Reading a type name gives a type that a user can write, and reading what this type is printed as
gives the type again. All types that a user can write are read back in this way. -/
theorem parse_text_canonical :
    (∀ s t, parse s = .ok t → t.IsWritable ∧ parse t.text = .ok t) ∧
      ∀ t : Ty, t.IsWritable → parse t.text = .ok t := by
  refine ⟨fun s t hread => ?_, fun t hwritable => hwritable.parse_text⟩
  have hwritable := isWritable_of_parse hread
  exact ⟨hwritable, hwritable.parse_text⟩

/-- A name with white space around its parts, an alias and a size with a sign is read as the type
that is printed without them. -/
theorem parse_text_canonical_spaced :
    parse " double * [ +03 ] * " = .ok (pointer (carray (pointer float64) 3)) ∧
      (pointer (carray (pointer float64) 3)).IsWritable ∧
      (pointer (carray (pointer float64) 3)).text = "float64*[3]*" ∧
      parse "float64*[3]*" = .ok (pointer (carray (pointer float64) 3)) := by
  have hread : parse " double * [ +03 ] * " = .ok (pointer (carray (pointer float64) 3)) := by
    rfl
  have htext : (pointer (carray (pointer float64) 3)).text = "float64*[3]*" := by decide +kernel
  obtain ⟨hwritable, hagain⟩ := parse_text_canonical.1 _ _ hread
  exact ⟨hread, hwritable, htext, htext ▸ parse_text_canonical.2 _ hwritable⟩

end Ty

end KernelFront
