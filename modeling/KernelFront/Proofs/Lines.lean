import Mathlib.Algebra.Group.Nat.Defs
import Mathlib.Data.List.Basic
import Mathlib.Data.List.Sort
import Mathlib.Data.List.TakeWhile
import KernelFront.Text.Lines

/-! # Lines and columns counted directly

The line of an offset is one more than the number of newline bytes before it, and its column counts
the bytes from just past the last of them. A table of line starts gives the same answer: it ascends,
so the starts up to an offset are found by halving, and in words of 32 bits no sum overflows and no
difference underflows. Positions ascend with offsets, so no two offsets share one.
-/

namespace KernelFront.Text

/-! ## Newlines before an offset -/

/-- The bytes of a text. -/
def bytes (source : String) : List UInt8 := source.toByteArray.data.toList

/-- The byte of a newline. -/
def newline : UInt8 := 10

/-- The positions before an offset that hold a newline, in ascending order. -/
def newlinesBefore (source : String) (offset : Nat) : List Nat :=
  (List.range offset).filter fun position => (bytes source)[position]? = some newline

/-- Where the line of an offset starts: just past the last newline before it, or at the beginning
of the text. -/
def lineStart (source : String) (offset : Nat) : Nat :=
  match (newlinesBefore source offset).getLast? with
  | some position => position + 1
  | none => 0

variable {source : String} {offset : Nat}

theorem mem_newlinesBefore {position : Nat} : position ∈ newlinesBefore source offset ↔
    position < offset ∧ (bytes source)[position]? = some newline := by
  simp [newlinesBefore]

theorem pairwise_newlinesBefore : (newlinesBefore source offset).Pairwise (· < ·) :=
  List.pairwise_lt_range.filter _

theorem length_newlinesBefore_le : (newlinesBefore source offset).length ≤ offset := by
  simpa [newlinesBefore] using
    List.length_filter_le (fun position => (bytes source)[position]? = some newline)
      (List.range offset)

theorem lineStart_le : lineStart source offset ≤ offset := by
  unfold lineStart
  split
  · rename_i position hlast
    exact (mem_newlinesBefore.mp (List.mem_of_getLast? hlast)).1
  · exact Nat.zero_le offset

/-- The newlines before a later offset are those before an earlier one and those in between. -/
theorem exists_newlinesBefore_add (more : Nat) :
    ∃ between, newlinesBefore source (offset + more) = newlinesBefore source offset ++ between := by
  unfold newlinesBefore
  rw [List.range_add, List.filter_append]
  exact ⟨_, rfl⟩

/-! ## The bytes of characters -/

theorem bytes_eq_flatMap : bytes source = source.toList.flatMap String.utf8EncodeChar := by
  rw [bytes, ← String.utf8Encode_toList, List.utf8Encode, List.toList_data_toByteArray]

theorem utf8EncodeChar_newline : String.utf8EncodeChar '\n' = [newline] := by decide

/-- In the encoding of a character of several bytes every byte has its highest bit set. -/
theorem or_ne_newline (low : UInt8) {high : UInt8} (hhigh : high ≥ 128) :
    low ||| high ≠ newline := by
  intro hnewline
  have hle : high.toNat ≤ (low ||| high).toNat := by
    rw [UInt8.toNat_or]
    exact Nat.right_le_or
  rw [hnewline] at hle
  have hhigh : 128 ≤ high.toNat := hhigh
  have : newline.toNat = 10 := rfl
  omega

/-- No other character has the byte of a newline in its encoding. -/
theorem newline_notMem_utf8EncodeChar {c : Char} (hc : c ≠ '\n') :
    newline ∉ String.utf8EncodeChar c := by
  obtain hsize | hsize | hsize | hsize := c.utf8Size_eq
  · rw [String.utf8EncodeChar_eq_singleton hsize, List.mem_singleton]
    intro hnewline
    have hsmall := UInt32.le_iff_toNat_le.mp (Char.utf8Size_eq_one_iff.mp hsize)
    have hvalue : c.val.toNat % 256 = 10 := by
      rw [← UInt32.toNat_toUInt8, ← hnewline]
      rfl
    refine hc (Char.ext (UInt32.toNat_inj.mp ?_))
    have : (127 : UInt32).toNat = 127 := rfl
    have : '\n'.val.toNat = 10 := rfl
    omega
  · rw [String.utf8EncodeChar_eq_cons_cons hsize]
    simp [Ne.symm (or_ne_newline _ _)]
  · rw [String.utf8EncodeChar_eq_cons_cons_cons hsize]
    simp [Ne.symm (or_ne_newline _ _)]
  · rw [String.utf8EncodeChar_eq_cons_cons_cons_cons hsize]
    simp [Ne.symm (or_ne_newline _ _)]

/-! ## The table of line starts -/

theorem mem_lineStartsFrom {cs : List Char} {start : Nat} : start ∈ lineStartsFrom offset cs ↔
    ∃ position, start = offset + position + 1 ∧
      (cs.flatMap String.utf8EncodeChar)[position]? = some newline := by
  induction cs generalizing offset with
  | nil => simp [lineStartsFrom]
  | cons c cs ih =>
      -- The newlines of the rest are where they were, `c.utf8Size` bytes further on.
      have hrest : start ∈ lineStartsFrom (offset + c.utf8Size) cs ↔
          ∃ position, c.utf8Size ≤ position ∧ start = offset + position + 1 ∧
            (cs.flatMap String.utf8EncodeChar)[position - c.utf8Size]? = some newline := by
        rw [ih]
        constructor
        · rintro ⟨position, rfl, hbyte⟩
          refine ⟨position + c.utf8Size, by omega, by omega, ?_⟩
          rwa [Nat.add_sub_cancel]
        · rintro ⟨position, hle, rfl, hbyte⟩
          exact ⟨position - c.utf8Size, by omega, hbyte⟩
      simp only [List.flatMap_cons, List.getElem?_append, String.length_utf8EncodeChar]
      by_cases hc : c = '\n'
      · subst hc
        have hsize : '\n'.utf8Size = 1 := rfl
        simp only [lineStartsFrom, if_true, List.mem_cons, hrest, utf8EncodeChar_newline]
        constructor
        · rintro (rfl | ⟨position, hle, hstart, hbyte⟩)
          · exact ⟨0, rfl, rfl⟩
          · exact ⟨position, hstart, by rwa [if_neg (by omega)]⟩
        · rintro ⟨position, hstart, hbyte⟩
          split at hbyte
          · exact .inl (by omega)
          · exact .inr ⟨position, by omega, hstart, hbyte⟩
      · simp only [lineStartsFrom, hc, if_false, hrest]
        constructor
        · rintro ⟨position, hle, hstart, hbyte⟩
          exact ⟨position, hstart, by rwa [if_neg (by omega)]⟩
        · rintro ⟨position, hstart, hbyte⟩
          split at hbyte
          · exact absurd (List.mem_of_getElem? hbyte) (newline_notMem_utf8EncodeChar hc)
          · exact ⟨position, by omega, hstart, hbyte⟩

theorem pairwise_lineStartsFrom (cs : List Char) : (lineStartsFrom offset cs).Pairwise (· < ·) := by
  induction cs generalizing offset with
  | nil => exact .nil
  | cons c cs ih =>
      simp only [lineStartsFrom]
      split
      · refine List.pairwise_cons.mpr ⟨fun start hstart => ?_, ih⟩
        obtain ⟨position, rfl, _⟩ := mem_lineStartsFrom.mp hstart
        omega
      · exact ih

theorem mem_lineStarts {start : Nat} : start ∈ lineStarts source ↔
    start = 0 ∨ ∃ position, start = position + 1 ∧ (bytes source)[position]? = some newline := by
  rw [lineStarts, List.mem_cons, mem_lineStartsFrom, bytes_eq_flatMap]
  simp only [Nat.zero_add]

theorem pairwise_lineStarts : (lineStarts source).Pairwise (· < ·) := by
  refine List.pairwise_cons.mpr ⟨fun start hstart => ?_, pairwise_lineStartsFrom _⟩
  obtain ⟨position, rfl, _⟩ := mem_lineStartsFrom.mp hstart
  omega

/-- In an ascending list the elements up to a bound come first. -/
theorem takeWhile_le_eq_filter {starts : List Nat} (hstarts : starts.Pairwise (· < ·)) :
    starts.takeWhile (· ≤ offset) = starts.filter (· ≤ offset) := by
  induction starts with
  | nil => rfl
  | cons start starts ih =>
      obtain ⟨hfirst, hrest⟩ := List.pairwise_cons.mp hstarts
      by_cases hstart : start ≤ offset
      · rw [List.takeWhile_cons_of_pos (by simpa using hstart),
          List.filter_cons_of_pos (by simpa using hstart), ih hrest]
      · rw [List.takeWhile_cons_of_neg (by simpa using hstart),
          List.filter_cons_of_neg (by simpa using hstart), eq_comm, List.filter_eq_nil_iff]
        intro later hlater
        have := hfirst later hlater
        simp only [decide_eq_true_eq]
        omega

/-- The line starts up to an offset are the beginning of the text and the places just past the
newlines before the offset. -/
theorem takeWhile_lineStarts : (lineStarts source).takeWhile (· ≤ offset) =
    0 :: (newlinesBefore source offset).map (· + 1) := by
  rw [takeWhile_le_eq_filter pairwise_lineStarts]
  refine (pairwise_lineStarts.filter _).eq_of_mem_iff (List.pairwise_cons.mpr ⟨?_, ?_⟩)
    fun start => ?_
  · simp
  · exact pairwise_newlinesBefore.map _ fun _ _ hlt => Nat.succ_lt_succ hlt
  · simp only [List.mem_filter, mem_lineStarts, decide_eq_true_eq, List.mem_cons, List.mem_map,
      mem_newlinesBefore]
    constructor
    · rintro ⟨rfl | ⟨position, rfl, hbyte⟩, hle⟩
      · exact .inl rfl
      · exact .inr ⟨position, ⟨hle, hbyte⟩, rfl⟩
    · rintro (rfl | ⟨position, ⟨hlt, hbyte⟩, rfl⟩)
      · exact ⟨.inl rfl, Nat.zero_le offset⟩
      · exact ⟨.inr ⟨position, rfl, hbyte⟩, hlt⟩

theorem getLastD_takeWhile_lineStarts :
    ((lineStarts source).takeWhile (· ≤ offset)).getLastD 0 = lineStart source offset := by
  rw [takeWhile_lineStarts, List.getLastD_cons, List.getLastD_eq_getLast?, List.getLast?_map,
    lineStart]
  cases (newlinesBefore source offset).getLast? <;> rfl

theorem lineCol_eq : lineCol source offset =
    ((newlinesBefore source offset).length + 1, offset - lineStart source offset + 1) := by
  rw [lineCol, placeIn, getLastD_takeWhile_lineStarts, takeWhile_lineStarts, List.length_cons,
    List.length_map]

/-! ## Positions ascend -/

/-- A later offset stands on a later line, or further on in the same line. -/
theorem lineCol_lt {later : Nat} (hlater : offset < later) :
    Prod.Lex (· < ·) (· < ·) (lineCol source offset) (lineCol source later) := by
  obtain ⟨more, rfl⟩ := Nat.exists_eq_add_of_lt hlater
  rw [Nat.add_assoc, lineCol_eq, lineCol_eq, Prod.lex_def]
  obtain ⟨between, hbetween⟩ := @exists_newlinesBefore_add source offset (more + 1)
  cases between with
  | nil =>
      right
      rw [List.append_nil] at hbetween
      have hstart : lineStart source (offset + (more + 1)) = lineStart source offset := by
        unfold lineStart
        rw [hbetween]
      have hle : lineStart source offset ≤ offset := lineStart_le
      rw [hbetween, hstart]
      omega
  | cons position between =>
      left
      rw [hbetween, List.length_append, List.length_cons]
      omega

/-! ## The look-up in words -/

/-- The sum of two words, unless it overflows. -/
def wordSum? (a b : UInt32) : Option UInt32 :=
  if a.toNat + b.toNat < UInt32.size then some (a + b) else none

/-- The difference of two words, unless it underflows. -/
def wordDifference? (a b : UInt32) : Option UInt32 := if b ≤ a then some (a - b) else none

/-- The first of `size` positions from `low` on that fails a test, found by halving, if the test
holds up to a position and fails from there on. -/
def partitionPoint (test : Nat → Bool) (low : Nat) : Nat → Nat
  | 0 => low
  | size + 1 =>
      let half := (size + 1) / 2
      if test (low + half) then partitionPoint test (low + half + 1) (size - half)
      else partitionPoint test low half
termination_by size => size

/-- The line starts of a text in words. -/
def wordStarts? (source : String) : Option (List UInt32) := do
  let starts ← (newlinesBefore source source.utf8ByteSize).mapM fun position =>
    wordSum? position.toUInt32 1
  some (0 :: starts)

/-- The line and column of an offset in words. -/
def wordLineCol? (source : String) (offset : UInt32) : Option (UInt32 × UInt32) := do
  let starts ← wordStarts? source
  let found := partitionPoint (fun position => starts[position]?.any (· ≤ offset)) 0 starts.length
  let line := max found 1 - 1
  let start ← starts[line]?
  let number ← wordSum? line.toUInt32 1
  let past ← wordDifference? offset start
  let column ← wordSum? past 1
  some (number, column)

theorem wordSum?_of_lt {a b : UInt32} (hlt : a.toNat + b.toNat < 2 ^ 32) :
    ∃ sum, wordSum? a b = some sum ∧ sum.toNat = a.toNat + b.toNat := by
  refine ⟨a + b, if_pos hlt, ?_⟩
  rw [UInt32.toNat_add, Nat.mod_eq_of_lt hlt]

theorem wordDifference?_of_le {a b : UInt32} (hle : b.toNat ≤ a.toNat) :
    ∃ difference, wordDifference? a b = some difference ∧
      difference.toNat = a.toNat - b.toNat := by
  have hle : b ≤ a := hle
  exact ⟨a - b, if_pos hle, UInt32.toNat_sub_of_le a b hle⟩

theorem partitionPoint_eq {test : Nat → Bool} {low size bound : Nat} (hlow : low ≤ bound)
    (hbound : bound ≤ low + size)
    (htest : ∀ position < low + size, test position = true ↔ position < bound) :
    partitionPoint test low size = bound := by
  fun_induction partitionPoint test low size with
  | case1 low => omega
  | case2 low size half hhalf ih =>
      have hhalf := (htest (low + half) (by omega)).mp hhalf
      exact ih hhalf (by omega) fun position hposition => htest position (by omega)
  | case3 low size half hhalf ih =>
      have hhalf := mt (htest (low + half) (by omega)).mpr hhalf
      exact ih hlow (by omega) fun position hposition => htest position (by omega)

theorem length_bytes : (bytes source).length = source.utf8ByteSize := by
  rw [bytes, Array.length_toList]
  rfl

theorem lineStarts_eq : lineStarts source =
    0 :: (newlinesBefore source source.utf8ByteSize).map (· + 1) := by
  rw [← takeWhile_lineStarts, eq_comm, List.takeWhile_eq_self_iff]
  intro start hstart
  obtain rfl | ⟨position, rfl, hbyte⟩ := mem_lineStarts.mp hstart
  · simp
  · obtain ⟨hlt, _⟩ := List.getElem?_eq_some_iff.mp hbyte
    rw [length_bytes] at hlt
    exact decide_eq_true hlt

/-- The table of line starts fits into words. -/
theorem exists_wordStarts (hsource : source.utf8ByteSize < 2 ^ 32) :
    ∃ starts, wordStarts? source = some starts ∧ starts.map UInt32.toNat = lineStarts source := by
  suffices hwords : ∀ positions : List Nat, (∀ position ∈ positions, position + 1 < 2 ^ 32) →
      ∃ starts, positions.mapM (fun position => wordSum? position.toUInt32 1) = some starts ∧
        starts.map UInt32.toNat = positions.map (· + 1) by
    obtain ⟨starts, hstarts, hvalues⟩ := hwords (newlinesBefore source source.utf8ByteSize) (by
      intro position hposition
      have := (mem_newlinesBefore.mp hposition).1
      omega)
    refine ⟨0 :: starts, ?_, ?_⟩
    · rw [wordStarts?, hstarts]
      rfl
    · rw [List.map_cons, hvalues, lineStarts_eq]
      rfl
  intro positions hpositions
  induction positions with
  | nil => exact ⟨[], rfl, rfl⟩
  | cons position positions ih =>
      obtain ⟨hfirst, hrest⟩ := List.forall_mem_cons.mp hpositions
      obtain ⟨starts, hstarts, hvalues⟩ := ih hrest
      have hposition : position.toUInt32.toNat = position := Nat.mod_eq_of_lt (by omega)
      obtain ⟨start, hstart, hvalue⟩ := wordSum?_of_lt (a := position.toUInt32) (b := 1) (by
        rw [hposition]
        exact hfirst)
      refine ⟨start :: starts, ?_, ?_⟩
      · rw [List.mapM_cons, hstart, hstarts]
        rfl
      · rw [List.map_cons, List.map_cons, hvalues, hvalue, hposition]
        rfl

/-- In an ascending list the elements up to a bound are those at the first positions. -/
theorem le_iff_lt_length_takeWhile {starts : List Nat} (hstarts : starts.Pairwise (· < ·))
    {position start : Nat} (hstart : starts[position]? = some start) :
    start ≤ offset ↔ position < (starts.takeWhile (· ≤ offset)).length := by
  induction starts generalizing position with
  | nil => cases hstart
  | cons first starts ih =>
      obtain ⟨hfirst, hrest⟩ := List.pairwise_cons.mp hstarts
      by_cases hle : first ≤ offset
      · rw [List.takeWhile_cons_of_pos (by simpa using hle), List.length_cons]
        cases position with
        | zero =>
            cases hstart
            simpa using hle
        | succ position => rw [ih hrest hstart, Nat.succ_lt_succ_iff]
      · rw [List.takeWhile_cons_of_neg (by simpa using hle)]
        refine iff_of_false ?_ (Nat.not_lt_zero position)
        obtain rfl | hlater := List.mem_cons.mp (List.mem_of_getElem? hstart)
        · exact hle
        · have := hfirst start hlater
          omega

/-- The last line start up to an offset stands where halving finds it. -/
theorem getElem?_lineStarts : (lineStarts source)[(newlinesBefore source offset).length]? =
    some (lineStart source offset) := by
  have hlast := @getLastD_takeWhile_lineStarts source offset
  have hprefix := List.takeWhile_append_dropWhile (p := (· ≤ offset)) (l := lineStarts source)
  rw [takeWhile_lineStarts] at hlast hprefix
  rw [← hprefix, List.getElem?_append_left (by simp), ← hlast, List.getLastD_eq_getLast?,
    List.getLast?_eq_getElem?]
  simp

/-- In words the look-up has a result at every offset but the largest word, and it is the line and
column counted in numbers. -/
theorem exists_wordLineCol (hsource : source.utf8ByteSize < 2 ^ 32)
    (hoffset : offset < 2 ^ 32 - 1) :
    ∃ line column, wordLineCol? source offset.toUInt32 = some (line, column) ∧
      (line.toNat, column.toNat) = lineCol source offset := by
  obtain ⟨starts, hstarts, hvalues⟩ := exists_wordStarts hsource
  have hoffset' : offset.toUInt32.toNat = offset := Nat.mod_eq_of_lt (by omega)
  have hget (position : Nat) : (lineStarts source)[position]? =
      starts[position]?.map UInt32.toNat := by rw [← hvalues, List.getElem?_map]
  have hlength : starts.length = (lineStarts source).length := by rw [← hvalues, List.length_map]
  have hbefore : ((lineStarts source).takeWhile (· ≤ offset)).length =
      (newlinesBefore source offset).length + 1 := by simp [takeWhile_lineStarts]
  have hfound : partitionPoint (fun position => starts[position]?.any (· ≤ offset.toUInt32)) 0
      starts.length = (newlinesBefore source offset).length + 1 := by
    refine partitionPoint_eq (Nat.zero_le _) ?_ fun position hposition => ?_
    · rw [← hbefore, hlength, Nat.zero_add]
      exact (List.takeWhile_prefix _).length_le
    · rw [Nat.zero_add] at hposition
      have hword : starts[position]? = some starts[position] := List.getElem?_eq_getElem hposition
      have hstart : (lineStarts source)[position]? = some starts[position].toNat := by
        rw [hget, hword, Option.map_some]
      rw [hword, Option.any_some, decide_eq_true_eq, ← hbefore,
        ← le_iff_lt_length_takeWhile pairwise_lineStarts hstart, UInt32.le_iff_toNat_le, hoffset']
  obtain ⟨start, hstart, hvalue⟩ : ∃ start, starts[(newlinesBefore source offset).length]? =
      some start ∧ start.toNat = lineStart source offset := by
    rw [← Option.map_eq_some_iff, ← hget]
    exact getElem?_lineStarts
  -- Neither the number of the line nor the column is more than one above the offset.
  have hcount : (newlinesBefore source offset).length ≤ offset := length_newlinesBefore_le
  have hle : lineStart source offset ≤ offset := lineStart_le
  have hone : (1 : UInt32).toNat = 1 := rfl
  have hnewlines : (newlinesBefore source offset).length.toUInt32.toNat =
      (newlinesBefore source offset).length := Nat.mod_eq_of_lt (by omega)
  obtain ⟨line, hline, hnumber⟩ := wordSum?_of_lt
    (a := (newlinesBefore source offset).length.toUInt32) (b := 1) (by omega)
  obtain ⟨past, hpast, hdifference⟩ := wordDifference?_of_le
    (a := offset.toUInt32) (b := start) (by omega)
  obtain ⟨column, hcolumn, hsum⟩ := wordSum?_of_lt (a := past) (b := 1) (by omega)
  refine ⟨line, column, ?_, ?_⟩
  · simp only [wordLineCol?, hstarts, hfound, Nat.max_eq_left (Nat.le_add_left 1 _),
      Nat.add_sub_cancel, hstart, hline, hpast, hcolumn, bind, Option.bind]
  · rw [lineCol_eq, hnumber, hsum, hdifference, hnewlines, hoffset', hvalue, hone]

/-- The line of an offset is one more than the number of newlines before it, and its column counts
from just past the last of them. The look-up in a table of words finds both, without an overflow and
without an underflow. Offsets and positions are in the same order, so distinct offsets have distinct
positions. -/
theorem lineCol_counts_newlines (hsource : source.utf8ByteSize < 2 ^ 32)
    (hoffset : offset < 2 ^ 32 - 1) :
    lineCol source offset =
        ((newlinesBefore source offset).length + 1, offset - lineStart source offset + 1) ∧
      (∃ line column, wordLineCol? source offset.toUInt32 = some (line, column) ∧
        (line.toNat, column.toNat) = lineCol source offset) ∧
      ∀ other, (offset < other ↔
          Prod.Lex (· < ·) (· < ·) (lineCol source offset) (lineCol source other)) ∧
        (lineCol source offset = lineCol source other ↔ offset = other) := by
  refine ⟨lineCol_eq, exists_wordLineCol hsource hoffset, fun other => ?_⟩
  rw [Prod.lex_def, Prod.ext_iff]
  obtain hlt | rfl | hlt := Nat.lt_trichotomy offset other
  · have hlex := Prod.lex_def.mp (@lineCol_lt source _ _ hlt)
    omega
  · omega
  · have hlex := Prod.lex_def.mp (@lineCol_lt source _ _ hlt)
    omega

/-- A text whose first character has two bytes and whose second line is empty. -/
def accented : String := "é\n\nx"

/-- Offset 2 stands on the first newline, offset 7 past the end of the text. -/
theorem lineCol_counts_newlines_accented : accented.utf8ByteSize < 2 ^ 32 ∧ 7 < 2 ^ 32 - 1 ∧
    newlinesBefore accented 7 = [2, 3] ∧ lineCol accented 7 = (3, 4) ∧
    (∃ line column, wordLineCol? accented (7 : Nat).toUInt32 = some (line, column) ∧
      (line.toNat, column.toNat) = (3, 4)) ∧
    ¬ Prod.Lex (· < ·) (· < ·) (lineCol accented 7) (lineCol accented 2) := by
  have hsize : accented.utf8ByteSize < 2 ^ 32 := by decide
  have hnewlines : newlinesBefore accented 7 = [2, 3] := by decide +kernel
  obtain ⟨hplace, hwords, horder⟩ := @lineCol_counts_newlines accented 7 hsize (by decide)
  have hplace : lineCol accented 7 = (3, 4) := by
    rw [hplace, lineStart, hnewlines]
    rfl
  rw [hplace] at hwords
  exact ⟨hsize, by decide, hnewlines, hplace, hwords, mt (horder 2).1.mpr (by decide)⟩

end KernelFront.Text
