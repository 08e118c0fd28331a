import KernelFront.Json.Record
import Mathlib.Data.List.Basic
import Mathlib.Data.List.Nodup

/-! # Drafts of JSON values

A draft is a JSON value in which some members of objects are marked as ones that may be left out. It
allows the value with all its members, and every value that lacks some of the marked ones, at any
depth. A reader reads a draft as a value if it does so for everything that the draft allows. What is
read of a record is settled field by field: a field is there as it was drafted, or it is a marked
one that was left out.
-/

namespace KernelFront.Json

/-- A JSON value with marks on the members that may be left out. -/
inductive Draft where
  | leaf (value : Json)
  | arr (items : List Draft)
  /-- The members with their names and marks. -/
  | obj (members : List (String × Bool × Draft))

namespace Draft

mutual

/-- The value with all its members. -/
def full : Draft → Json
  | .leaf value => value
  | .arr items => .arr (fullAll items)
  | .obj members => .obj (fullMembers members)

/-- Each value with all its members. -/
def fullAll : List Draft → List Json
  | [] => []
  | d :: ds => full d :: fullAll ds

/-- All members. -/
def fullMembers : List (String × Bool × Draft) → List (String × Json)
  | [] => []
  | (name, _, d) :: members => (name, full d) :: fullMembers members

end

mutual

/-- A value is the drafted one without some of the marked members. -/
inductive Allows : Draft → Json → Prop where
  | leaf {value : Json} : Allows (.leaf value) value
  | arr {items : List Draft} {values : List Json} (hitems : AllowsAll items values) :
      Allows (.arr items) (.arr values)
  | obj {drafts : List (String × Bool × Draft)} {members : List (String × Json)}
      (hmembers : AllowsMembers drafts members) : Allows (.obj drafts) (.obj members)

/-- Values are the drafted ones without some of the marked members. -/
inductive AllowsAll : List Draft → List Json → Prop where
  | nil : AllowsAll [] []
  | cons {d : Draft} {ds : List Draft} {v : Json} {vs : List Json} (hhead : d.Allows v)
      (htail : AllowsAll ds vs) : AllowsAll (d :: ds) (v :: vs)

/-- Members are the drafted ones without some of the marked ones. -/
inductive AllowsMembers : List (String × Bool × Draft) → List (String × Json) → Prop where
  | nil : AllowsMembers [] []
  | kept {name : String} {spare : Bool} {d : Draft} {v : Json}
      {drafts : List (String × Bool × Draft)} {members : List (String × Json)} (hhead : d.Allows v)
      (htail : AllowsMembers drafts members) :
      AllowsMembers ((name, spare, d) :: drafts) ((name, v) :: members)
  | left {name : String} {d : Draft} {drafts : List (String × Bool × Draft)}
      {members : List (String × Json)} (htail : AllowsMembers drafts members) :
      AllowsMembers ((name, true, d) :: drafts) members

end

mutual

/-- Nothing has to be left out. -/
theorem allows_full (d : Draft) : d.Allows d.full := by
  cases d with
  | leaf value => exact .leaf
  | arr items => exact .arr (allowsAll_full items)
  | obj members => exact .obj (allowsMembers_full members)
termination_by structural d

theorem allowsAll_full (ds : List Draft) : AllowsAll ds (fullAll ds) := by
  cases ds with
  | nil => exact .nil
  | cons d ds => exact .cons (allows_full d) (allowsAll_full ds)
termination_by structural ds

theorem allowsMembers_full (drafts : List (String × Bool × Draft)) :
    AllowsMembers drafts (fullMembers drafts) := by
  cases drafts with
  | nil => exact .nil
  | cons draft drafts =>
      obtain ⟨name, spare, d⟩ := draft
      exact .kept (allows_full d) (allowsMembers_full drafts)
termination_by structural drafts

end

mutual

/-- The value without any of the marked members. -/
def least : Draft → Json
  | .leaf value => value
  | .arr items => .arr (leastAll items)
  | .obj members => .obj (leastMembers members)

/-- Each value without any of the marked members. -/
def leastAll : List Draft → List Json
  | [] => []
  | d :: ds => least d :: leastAll ds

/-- The members that have to be there. -/
def leastMembers : List (String × Bool × Draft) → List (String × Json)
  | [] => []
  | (_, true, _) :: members => leastMembers members
  | (name, false, d) :: members => (name, least d) :: leastMembers members

end

mutual

/-- Everything that is marked may be left out at once. -/
theorem allows_least (d : Draft) : d.Allows d.least := by
  cases d with
  | leaf value => exact .leaf
  | arr items => exact .arr (allowsAll_least items)
  | obj members => exact .obj (allowsMembers_least members)
termination_by structural d

theorem allowsAll_least (ds : List Draft) : AllowsAll ds (leastAll ds) := by
  cases ds with
  | nil => exact .nil
  | cons d ds => exact .cons (allows_least d) (allowsAll_least ds)
termination_by structural ds

theorem allowsMembers_least (drafts : List (String × Bool × Draft)) :
    AllowsMembers drafts (leastMembers drafts) := by
  cases drafts with
  | nil => exact .nil
  | cons draft drafts =>
      obtain ⟨name, spare, d⟩ := draft
      cases spare with
      | true => exact .left (allowsMembers_least drafts)
      | false => exact .kept (allows_least d) (allowsMembers_least drafts)
termination_by structural drafts

end

/-- A value named by a tag. -/
def tagged (tag : String) (payload : Draft) : Draft := .obj [(tag, false, payload)]

/-- A tag with a record of fields. -/
def taggedRecord (tag : String) (fields : List (String × Bool × Draft)) : Draft :=
  tagged tag (.obj fields)

/-- An optional value; absence is `null`. -/
def option {α : Type} (f : α → Draft) : Option α → Draft
  | none => .leaf .null
  | some a => f a

/-- A text. -/
def text (s : String) : Draft := .leaf (.str s)

theorem full_text (s : String) : (text s).full = .str s := rfl

/-- A list of texts. -/
def texts (ss : List String) : Draft := .arr (ss.map text)

theorem fullAll_eq_map (ds : List Draft) : fullAll ds = ds.map full := by
  induction ds with
  | nil => rfl
  | cons d ds ih => simp only [fullAll, List.map_cons, ih]

theorem full_texts (ss : List String) : (texts ss).full = Json.strings ss := by
  simp only [texts, full, fullAll_eq_map, List.map_map, Json.strings]
  rfl

theorem full_option {α : Type} (f : α → Draft) (o : Option α) :
    (option f o).full = Json.option (fun a => (f a).full) o := by
  cases o <;> rfl

/-- Whether a draft is `null`. -/
def isNull : Draft → Bool
  | .leaf .null => true
  | _ => false

theorem Allows.ne_null {d : Draft} {v : Json} (hallows : d.Allows v) (hd : d.isNull = false) :
    v ≠ .null := by
  rintro rfl
  cases hallows
  cases hd

/-! ## Names and depths of what a draft allows -/

variable {drafts : List (String × Bool × Draft)} {members : List (String × Json)}

theorem AllowsMembers.sublist (hmembers : AllowsMembers drafts members) :
    (members.map Prod.fst).Sublist (drafts.map Prod.fst) := by
  induction drafts generalizing members with
  | nil =>
      cases hmembers
      exact List.nil_sublist _
  | cons draft drafts ih =>
      cases hmembers with
      | kept hhead htail => exact (ih htail).cons_cons _
      | left htail => exact (ih htail).cons _

theorem AllowsMembers.lookup_eq_none (hmembers : AllowsMembers drafts members) {name : String}
    (hname : name ∉ drafts.map Prod.fst) : members.lookup name = none := by
  refine List.lookup_eq_none_iff.mpr fun member hmember => ?_
  have hmem := hmembers.sublist.subset (List.mem_map_of_mem hmember)
  exact bne_iff_ne.mpr fun heq => hname (heq ▸ hmem)

end Draft

theorem depth_pos (v : Json) : 0 < v.depth := by
  cases v <;> simp only [depth, Nat.zero_lt_succ]

theorem asUInt?_nat {bits n : Nat} (hn : n < (1 <<< bits : Nat)) :
    (Json.nat n).asUInt? bits = some n := by
  have hrange : (0 : Int) ≤ n ∧ (n : Int) < ((1 <<< bits : Nat) : Int) :=
    ⟨Int.natCast_nonneg n, Int.ofNat_lt.mpr hn⟩
  simp only [Json.nat, asUInt?, if_pos hrange, Int.toNat_natCast]

theorem asBinary64?_ofBinary64 {x : Binary64} (hx : x.isFinite) :
    (ofBinary64 x).asBinary64? = some x := by
  rw [ofBinary64, if_pos hx, asBinary64?]

/-! ## Fields of records -/

namespace Record

/-- A record holds a drafted field, at most so deep, or it lacks the field and may do so. -/
def Holds (depth : Nat) (r : Record) : String × Bool × Draft → Prop
  | (field, spare, d) =>
      (∃ v, r.members.lookup field = some v ∧ d.Allows v ∧ v.depth ≤ depth) ∨
        r.members.lookup field = none ∧ r.positional = false ∧ spare = true

end Record

open Draft

variable {drafts : List (String × Bool × Draft)} {members : List (String × Json)} {depth : Nat}

theorem Draft.AllowsMembers.holds (hmembers : AllowsMembers drafts members)
    (hnodup : (drafts.map Prod.fst).Nodup) (hdepth : depthMembers members ≤ depth) :
    ∀ draft ∈ drafts, Record.Holds depth ⟨members, false⟩ draft := by
  induction drafts generalizing members with
  | nil => exact List.forall_mem_nil _
  | cons draft drafts ih =>
      obtain ⟨name, spare, d⟩ := draft
      obtain ⟨hname, htailNodup⟩ := List.nodup_cons.mp hnodup
      cases hmembers with
      | @kept _ _ _ v _ members hhead htail =>
          obtain ⟨hle, hles⟩ := Nat.max_le.mp hdepth
          refine List.forall_mem_cons.mpr ⟨.inl ⟨v, List.lookup_cons_self, hhead, hle⟩, ?_⟩
          rintro ⟨field, draft⟩ hdraft
          have hne : (field == name) = false :=
            beq_eq_false_iff_ne.mpr fun heq => hname (List.mem_map.mpr ⟨_, hdraft, heq⟩)
          simpa only [Record.Holds, List.lookup_cons, hne] using
            ih htail htailNodup hles _ hdraft
      | left htail =>
          refine List.forall_mem_cons.mpr ⟨.inr ⟨htail.lookup_eq_none hname, rfl, rfl⟩, ?_⟩
          exact ih htail htailNodup hdepth

/-- No field of a drafted record occurs twice. -/
theorem Draft.AllowsMembers.namedRecord? (hmembers : AllowsMembers drafts members)
    (hnodup : (drafts.map Prod.fst).Nodup) (fields : List String) :
    (Json.obj members).namedRecord? fields = some ⟨members, false⟩ := by
  have hunique := hnodup.sublist hmembers.sublist
  refine if_pos (List.all_eq_true.mpr fun field _ => decide_eq_true ?_)
  have hcount := List.nodup_iff_count_le_one.mp hunique field
  rw [List.count_eq_countP, List.countP_map, List.countP_eq_length_filter] at hcount
  exact hcount

/-- What a draft of an object allows is a record that holds the fields. -/
theorem Draft.Allows.record? {v : Json} (hallows : (Draft.obj drafts).Allows v)
    (hnodup : (drafts.map Prod.fst).Nodup) (hdepth : v.depth ≤ depth) (fields : List String) :
    ∃ r, v.record? fields = some r ∧ drafts.Forall (r.Holds depth) := by
  cases hallows with
  | @obj _ members hmembers =>
      have hbelow : depthMembers members ≤ depth := Nat.le_of_succ_le hdepth
      exact ⟨_, hmembers.namedRecord? hnodup fields,
        List.forall_iff_forall_mem.mpr (hmembers.holds hnodup hbelow)⟩

theorem Draft.Allows.fields? {v : Json} (hallows : (Draft.obj drafts).Allows v)
    (hnodup : (drafts.map Prod.fst).Nodup) (hdepth : v.depth ≤ depth) (style : Style)
    (fields : List String) :
    ∃ r, v.fields? style fields = some r ∧ drafts.Forall (r.Holds depth) := by
  obtain ⟨r, hr, hholds⟩ := hallows.record? hnodup hdepth fields
  refine ⟨r, ?_, hholds⟩
  cases hallows
  cases style <;> exact hr

/-! ## Readers -/

/-- A reader reads everything that a draft allows, down to a depth, as one value. -/
def Reads {α : Type} (depth : Nat) (d : Draft) (f : Json → Option α) (a : α) : Prop :=
  ∀ v, d.Allows v → v.depth ≤ depth → f v = some a

namespace Record.Holds

variable {α : Type} {r : Record} {field : String} {spare : Bool} {d : Draft} {f : Json → Option α}
  {a : α}

theorem required (hholds : r.Holds depth (field, false, d)) (hreads : Reads depth d f a) :
    r.required field f = some a := by
  obtain ⟨v, hlookup, hallows, hdepth⟩ | ⟨_, _, hspare⟩ := hholds
  · simp only [Record.required, hlookup, Option.bind_some, hreads v hallows hdepth]
  · cases hspare

theorem defaulted {absent : α} (hholds : r.Holds depth (field, spare, d))
    (hreads : Reads depth d f a) (hspare : spare = true → a = absent) :
    r.defaulted field absent f = some a := by
  obtain ⟨v, hlookup, hallows, hdepth⟩ | ⟨hlookup, _, hmark⟩ := hholds
  · simp only [Record.defaulted, hlookup, hreads v hallows hdepth]
  · simp only [Record.defaulted, hlookup, hspare hmark]

theorem optional {o : Option α} (hholds : r.Holds depth (field, spare, d))
    (hreads : Reads depth d (asOption? f) o) (hspare : spare = true → o = none) :
    r.optional field f = some o := by
  obtain ⟨v, hlookup, hallows, hdepth⟩ | ⟨hlookup, hpositional, hmark⟩ := hholds
  · simp only [Record.optional, hlookup, hreads v hallows hdepth]
  · simp only [Record.optional, hlookup, hpositional, hspare hmark, Bool.false_eq_true, if_false]

end Record.Holds

namespace Reads

variable {α β : Type} {d : Draft} {f : Json → Option α} {a : α}

theorem mono {deeper : Nat} (hreads : Reads deeper d f a) (hle : depth ≤ deeper) :
    Reads depth d f a :=
  fun v hallows hdepth => hreads v hallows (Nat.le_trans hdepth hle)

theorem leaf {value : Json} (hvalue : f value = some a) : Reads depth (.leaf value) f a := by
  intro v hallows _
  cases hallows
  exact hvalue

theorem zero : Reads 0 d f a :=
  fun v _ hdepth => absurd hdepth (Nat.not_le.mpr v.depth_pos)

theorem bool {b : Bool} : Reads depth (.leaf (.bool b)) asBool? b := .leaf rfl

theorem text {s : String} : Reads depth (.text s) asString? s := .leaf rfl

theorem nat {bits n : Nat} (hn : n < (1 <<< bits : Nat)) :
    Reads depth (.leaf (.nat n)) (asUInt? bits) n :=
  .leaf (asUInt?_nat hn)

theorem map (hreads : Reads depth d f a) (g : α → β) :
    Reads depth d (fun v => (f v).map g) (g a) :=
  fun v hallows hdepth => congrArg (Option.map g) (hreads v hallows hdepth)

theorem list {w : β → Draft} {g : Json → Option β} {bs : List β}
    (hreads : ∀ b ∈ bs, Reads depth (w b) g b) :
    Reads depth (.arr (bs.map w)) (asList? g) bs := by
  intro v hallows hdepth
  cases hallows with
  | @arr _ values hitems =>
      replace hdepth : depthAll values ≤ depth := Nat.le_of_succ_le hdepth
      change values.mapM g = some bs
      induction bs generalizing values with
      | nil =>
          cases hitems
          rfl
      | cons b bs ih =>
          obtain ⟨hhead, htail⟩ := List.forall_mem_cons.mp hreads
          cases hitems with
          | cons hvalue hvalues =>
              obtain ⟨hle, hles⟩ := Nat.max_le.mp hdepth
              simp [hhead _ hvalue hle, ih htail hvalues hles]

theorem option {w : α → Draft} {o : Option α} (hreads : ∀ a ∈ o, Reads depth (w a) f a)
    (hnull : ∀ a ∈ o, (w a).isNull = false) : Reads depth (Draft.option w o) (asOption? f) o := by
  cases o with
  | none => exact .leaf rfl
  | some a =>
      intro v hallows hdepth
      have hvalue := hreads a rfl v hallows hdepth
      have hne := hallows.ne_null (hnull a rfl)
      cases v with
      | null => exact absurd rfl hne
      | _ => exact congrArg (Option.map some) hvalue

theorem texts {ss : List String} : Reads depth (.texts ss) (asList? asString?) ss :=
  list fun _ _ => text

/-- Reading the fields of an alternative one after the other. -/
theorem fields (style : Style) {names : List String} {g : Record → Option α}
    (hnodup : (drafts.map Prod.fst).Nodup)
    (hread : ∀ r : Record, drafts.Forall (r.Holds depth) → g r = some a) :
    Reads depth (.obj drafts) (fun v => (v.fields? style names).bind g) a := by
  intro v hallows hdepth
  obtain ⟨r, hr, hholds⟩ := hallows.fields? hnodup hdepth style names
  exact (congrArg (Option.bind · g) hr).trans (hread r hholds)

/-- Reading the fields of a record one after the other. -/
theorem record {names : List String} {g : Record → Option α}
    (hnodup : (drafts.map Prod.fst).Nodup)
    (hread : ∀ r : Record, drafts.Forall (r.Holds depth) → g r = some a) :
    Reads depth (.obj drafts) (fun v => (v.record? names).bind g) a :=
  fields .compact hnodup hread

/-- What the draft of a tagged value allows is the tag with what the payload allows. -/
theorem tagged {tag : String} {payload : Draft} {g : Json → Option α}
    (hreads : Reads depth payload g a) (hnull : payload.isNull = false)
    (hf : ∀ v, v ≠ .null → f (.obj [(tag, v)]) = g v) :
    Reads (depth + 1) (.tagged tag payload) f a := by
  intro v hallows hdepth
  cases hallows with
  | obj hmembers =>
      cases hmembers with
      | @kept _ _ _ v _ _ hvalue htail =>
          cases htail
          have hbelow : v.depth ≤ depth := (Nat.max_le.mp (Nat.le_of_succ_le_succ hdepth)).1
          rw [hf v (hvalue.ne_null hnull), hreads v hvalue hbelow]

end Reads

end KernelFront.Json
