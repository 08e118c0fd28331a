import KernelFront.Format.Ty
import KernelFront.Proofs.Format.Draft
import KernelFront.Proofs.Format.Scalars

/-! # Reading types and bindings back

The drafts of types and bindings: their JSON forms with marks on the recorded constants of an
aggregate that records none, and on the absent parts of a binding. Whatever such a draft allows is
read as the type or binding that was written, provided that its numbers fit their fields.
-/

namespace KernelFront

open Json

/-! ## Constants -/

namespace Constant

mutual

theorem ofDepth?_toJson {c : Constant} (hc : ∀ s ∈ c.scalars, s.Fits) {depth : Nat}
    (hdepth : c.toJson.depth ≤ depth) : ofDepth? depth c.toJson = some c := by
  obtain ⟨depth, rfl⟩ : ∃ below, depth = below + 1 :=
    ⟨_, (Nat.succ_pred (Nat.ne_of_gt (Nat.lt_of_lt_of_le (depth_pos _) hdepth))).symm⟩
  cases c with
  | nothing | ellipsis | null | stdout | bool | str => rfl
  | int value =>
      have hrange := (hc _ (List.mem_singleton_self _)).1
      simp only [Scalar.InRange] at hrange
      simp [toJson, tagged, ofDepth?, ofLayer?, variant?, asInt64?, asIntIn?, hrange]
  | float value =>
      have hfinite := (hc _ (List.mem_singleton_self _)).2
      simp [toJson, tagged, ofDepth?, ofLayer?, variant?, asBinary64?_ofBinary64 hfinite]
  | complex re im =>
      have hre := (hc (.double re) (by simp [scalars])).2
      have him := (hc (.double im) (by simp [scalars])).2
      simp [toJson, tagged, ofDepth?, ofLayer?, variant?, asBinary64?_ofBinary64 hre,
        asBinary64?_ofBinary64 him]
  | tuple items =>
      have hbelow : depthAll (toJsonAll items) ≤ depth := by
        simp only [toJson, tagged, Json.depth, depthMembers] at hdepth
        omega
      have hitems : (toJsonAll items).mapM (ofDepth? depth) = some items :=
        mapM_toJsonAll hc hbelow
      simp [toJson, tagged, ofDepth?, ofLayer?, variant?, asList?, hitems]
termination_by structural c

theorem mapM_toJsonAll {items : List Constant} (hitems : ∀ s ∈ scalarsAll items, s.Fits)
    {depth : Nat} (hdepth : depthAll (toJsonAll items) ≤ depth) :
    (toJsonAll items).mapM (ofDepth? depth) = some items := by
  cases items with
  | nil => rfl
  | cons c cs =>
      obtain ⟨hc, hcs⟩ := List.forall_mem_append.mp hitems
      obtain ⟨hle, hles⟩ := Nat.max_le.mp hdepth
      simp [toJsonAll, ofDepth?_toJson hc hle, mapM_toJsonAll hcs hles]
termination_by structural items

end

theorem ofJson?_toJson {c : Constant} (hc : ∀ s ∈ c.scalars, s.Fits) :
    ofJson? c.toJson = some c :=
  ofDepth?_toJson hc (Nat.le_refl _)

theorem isNull_leaf (c : Constant) : (Draft.leaf c.toJson).isNull = false := by
  cases c <;> rfl

end Constant

/-! ## Types -/

namespace Ty

/-- The JSON form of the constants that a type records, none of whose members may be left out. -/
def constantsDraft (value : Option (List Constant)) : Draft :=
  .option (fun items => .leaf (.arr (Constant.toJsonAll items))) value

mutual

/-- The JSON form of a type with marks. -/
def draft : Ty → Draft
  | .pointer base => .tagged "Pointer" (draft base)
  | .array elem layout =>
      .taggedRecord "Array" [("dtype", false, draft elem),
        ("ndim", false, .leaf (.nat layout.ndim)),
        ("c_contig", false, .leaf (.bool layout.cContig)),
        ("inner_contig", false, .leaf (.bool layout.innerContig))]
  | .carray base size =>
      .taggedRecord "CArray" [("base", false, draft base), ("size", false, .leaf (.nat size))]
  | .tuple size value =>
      .taggedRecord "Tuple"
        [("size", false, .leaf (.nat size)), ("value", value.isNone, constantsDraft value)]
  | .list size value =>
      .taggedRecord "List"
        [("size", false, .leaf (.nat size)), ("value", value.isNone, constantsDraft value)]
  | .dtype base => .tagged "NumpyDtype" (draft base)
  | .function args ret =>
      .taggedRecord "Function" [("args", false, .arr (draftAll args)), ("ret", false, draft ret)]
  | t => .leaf t.toJson

/-- The JSON form of each type with marks. -/
def draftAll : List Ty → List Draft
  | [] => []
  | t :: ts => draft t :: draftAll ts

end

mutual

theorem full_draft (t : Ty) : t.draft.full = t.toJson := by
  cases t with
  | pointer base | dtype base | array base | carray base =>
      simp [draft, Draft.tagged, Draft.taggedRecord, Draft.full, Draft.fullMembers, toJson,
        Json.tagged, Json.taggedRecord, full_draft base]
  | function args ret =>
      simp [draft, Draft.tagged, Draft.taggedRecord, Draft.full, Draft.fullMembers, toJson,
        Json.tagged, Json.taggedRecord, full_draft ret, fullAll_draftAll args]
  | tuple size value | list size value => cases value <;> rfl
  | _ => rfl
termination_by structural t

theorem fullAll_draftAll (ts : List Ty) : Draft.fullAll (draftAll ts) = toJsonAll ts := by
  cases ts with
  | nil => rfl
  | cons t ts => simp only [draftAll, Draft.fullAll, toJsonAll, full_draft t, fullAll_draftAll ts]
termination_by structural ts

end

theorem isNull_draft (t : Ty) : t.draft.isNull = false := by
  cases t <;> rfl

theorem draftAll_eq_map (ts : List Ty) : draftAll ts = ts.map draft := by
  induction ts with
  | nil => rfl
  | cons t ts ih => simp only [draftAll, List.map_cons, ih]

variable {style : Style} {depth : Nat} {part : Json → Option Ty}

theorem ofLayer?_tagged (tag : String) {v : Json} (hv : v ≠ .null) :
    ofLayer? style part (.obj [(tag, v)]) = ofPayload? style part tag v := by
  cases v with
  | null => exact absurd rfl hv
  | _ => rfl

theorem ofPayload?_tagged {tag : String} {payload : Draft} {t : Ty}
    (hreads : Reads depth payload (ofPayload? style part tag) t) (hnull : payload.isNull = false) :
    Reads (depth + 1) (.tagged tag payload) (ofLayer? style part) t :=
  hreads.tagged hnull fun _ hv => ofLayer?_tagged tag hv

theorem reads_constants {value : Option (List Constant)}
    (hvalue : ∀ s ∈ recordedScalars value, s.Fits) :
    Reads depth (constantsDraft value) (asOption? (asList? Constant.ofJson?)) value := by
  refine .option (fun items hitems => .leaf ?_) fun items _ => rfl
  rw [hitems] at hvalue
  have hfit : ∀ s ∈ Constant.scalarsAll items, s.Fits := by
    simpa [recordedScalars] using hvalue
  clear hitems hvalue
  change (Constant.toJsonAll items).mapM Constant.ofJson? = some items
  induction items with
  | nil => rfl
  | cons c cs ih =>
      obtain ⟨hc, hcs⟩ := List.forall_mem_append.mp hfit
      simp [Constant.toJsonAll, Constant.ofJson?_toJson hc, ih hcs]

theorem reads_aggregate {make : Nat → Option (List Constant) → Ty} {size : Nat}
    {value : Option (List Constant)} (hsize : (Scalar.nat 64 size).Fits)
    (hvalue : ∀ s ∈ recordedScalars value, s.Fits) :
    Reads depth
      (.obj [("size", false, .leaf (.nat size)), ("value", value.isNone, constantsDraft value)])
      (aggregate? style make) (make size value) := by
  refine .fields style (by simp) ?_
  rintro r ⟨hsizeField, hvalueField⟩
  have hread := hvalueField.optional (reads_constants hvalue) Option.isNone_iff_eq_none.mp
  simp only [hsizeField.required (.nat hsize.1), hread, Option.bind_eq_bind, Option.bind_some]

theorem reads_signature {args : List Ty} {ret : Ty}
    (hargs : ∀ t ∈ args, Reads depth t.draft part t) (hret : Reads depth ret.draft part ret) :
    Reads depth (.obj [("args", false, .arr (draftAll args)), ("ret", false, ret.draft)])
      (signature? part) ⟨args, ret⟩ := by
  rw [draftAll_eq_map]
  refine .record (by simp) ?_
  rintro r ⟨hargsField, hretField⟩
  simp only [hargsField.required (.list hargs), hretField.required hret, Option.bind_eq_bind,
    Option.bind_some]

theorem reads_array {elem : Ty} {layout : Layout} (hndim : (Scalar.nat 64 layout.ndim).Fits)
    (helem : Reads depth elem.draft part elem) :
    Reads depth
      (.obj [("dtype", false, elem.draft), ("ndim", false, .leaf (.nat layout.ndim)),
        ("c_contig", false, .leaf (.bool layout.cContig)),
        ("inner_contig", false, .leaf (.bool layout.innerContig))])
      (arrayType? part) (elem, layout) := by
  refine .record (by simp) ?_
  rintro r ⟨helemField, hndimField, hcContig, hinnerContig⟩
  simp only [helemField.required helem, hndimField.required (.nat hndim.1),
    hcContig.required .bool, hinnerContig.required .bool, Option.bind_eq_bind, Option.bind_some]

theorem reads_carray {base : Ty} {size : Nat} (hsize : (Scalar.nat 64 size).Fits)
    (hbase : Reads depth base.draft part base) :
    Reads depth (.obj [("base", false, base.draft), ("size", false, .leaf (.nat size))])
      (ofPayload? style part "CArray") (.carray base size) := by
  refine .fields style (by simp) ?_
  rintro r ⟨hbaseField, hsizeField⟩
  simp only [hbaseField.required hbase, hsizeField.required (.nat hsize.1), Option.bind_eq_bind,
    Option.bind_some]

theorem width?_bits {make : Nat → Ty} {bits : Nat} (hbits : (Scalar.nat 8 bits).Fits) :
    width? style make (.obj [("bits", .nat bits)]) = some (make bits) := by
  cases style <;>
    simp [width?, fields?, record?, namedRecord?, Record.required, asUInt?_nat hbits.1]

mutual

theorem reads_draft (t : Ty) (ht : ∀ s ∈ t.scalars, s.Fits) (depth : Nat) :
    Reads depth t.draft (ofDepth? style depth) t := by
  cases depth with
  | zero => exact .zero
  | succ depth =>
      change Reads _ _ (ofLayer? style (ofDepth? style depth)) _
      cases t with
      | bool | range | slice | ellipsis | newAxis | object | void => exact .leaf rfl
      | module | moduleAttribute | builtin | global =>
          refine .leaf ?_
          cases style <;> rfl
      | int signed bits =>
          have hbits := asUInt?_nat (ht _ (List.mem_singleton_self _)).1
          refine .leaf ?_
          cases style <;>
            simp [toJson, Json.taggedRecord, Json.tagged, ofLayer?, variant?, ofPayload?, fields?,
              record?, namedRecord?, Record.required, List.lookup_cons, hbits, asBool?]
      | float bits => exact .leaf (width?_bits (ht _ (List.mem_singleton_self _)))
      | complex bits => exact .leaf (width?_bits (ht _ (List.mem_singleton_self _)))
      | pointer base =>
          exact ofPayload?_tagged ((reads_draft base ht depth).map _) base.isNull_draft
      | dtype base =>
          exact ofPayload?_tagged ((reads_draft base ht depth).map _) base.isNull_draft
      | array elem layout =>
          obtain ⟨hndim, helem⟩ := List.forall_mem_cons.mp ht
          exact ofPayload?_tagged ((reads_array hndim (reads_draft elem helem depth)).map _) rfl
      | carray base size =>
          obtain ⟨hsize, hbase⟩ := List.forall_mem_cons.mp ht
          exact ofPayload?_tagged (reads_carray hsize (reads_draft base hbase depth)) rfl
      | tuple size value =>
          obtain ⟨hsize, hvalue⟩ := List.forall_mem_cons.mp ht
          exact ofPayload?_tagged (reads_aggregate hsize hvalue) rfl
      | list size value =>
          obtain ⟨hsize, hvalue⟩ := List.forall_mem_cons.mp ht
          exact ofPayload?_tagged (reads_aggregate hsize hvalue) rfl
      | function args ret =>
          obtain ⟨hret, hargs⟩ := List.forall_mem_append.mp ht
          exact ofPayload?_tagged ((reads_signature (reads_draftAll args hargs depth)
            (reads_draft ret hret depth)).map _) rfl
termination_by structural t

theorem reads_draftAll (ts : List Ty) (hts : ∀ s ∈ scalarsAll ts, s.Fits) (depth : Nat) :
    ∀ t ∈ ts, Reads depth t.draft (ofDepth? style depth) t := by
  cases ts with
  | nil => exact List.forall_mem_nil _
  | cons t ts =>
      obtain ⟨ht, hts⟩ := List.forall_mem_append.mp hts
      exact List.forall_mem_cons.mpr ⟨reads_draft t ht depth, reads_draftAll ts hts depth⟩
termination_by structural ts

end

theorem reads_ofJson? {t : Ty} (ht : ∀ s ∈ t.scalars, s.Fits) :
    Reads depth t.draft (ofJson? style) t :=
  fun v hallows _ => reads_draft t ht v.depth v hallows (Nat.le_refl _)

end Ty

namespace FunctionType

/-- The JSON form of a function type with marks. -/
def draft (s : FunctionType) : Draft :=
  .obj [("args", false, .arr (Ty.draftAll s.args)), ("ret", false, s.ret.draft)]

theorem full_draft (s : FunctionType) : s.draft.full = s.toJson := by
  simp only [draft, Draft.full, Draft.fullMembers, Ty.fullAll_draftAll, Ty.full_draft, toJson]

theorem reads_ofJson? {s : FunctionType} (hs : ∀ n ∈ s.scalars, n.Fits) {style : Style}
    {depth : Nat} : Reads depth s.draft (ofJson? style) s := by
  obtain ⟨hret, hargs⟩ := List.forall_mem_append.mp hs
  rw [Ty.scalarsAll_eq, List.forall_mem_flatMap] at hargs
  exact Ty.reads_signature (fun t ht => Ty.reads_ofJson? (hargs t ht)) (Ty.reads_ofJson? hret)

end FunctionType

/-! ## Bindings -/

namespace Variable

/-- The JSON form of a binding with marks. -/
def draft (var : Variable) : Draft :=
  .obj [("ty", var.ty.isNone, .option Ty.draft var.ty),
    ("is_local", false, .leaf (.bool var.isLocal)),
    ("is_constant", false, .leaf (.bool var.isConstant)),
    ("constant_value", var.constantValue.isNone, .option (.leaf ·.toJson) var.constantValue),
    ("name", var.name.isNone, .option .text var.name)]

theorem full_draft (var : Variable) : var.draft.full = var.toJson := by
  simp only [draft, Draft.full, Draft.fullMembers, Draft.full_option, Draft.full_text,
    Ty.full_draft, toJson]

theorem reads_ofJson? {var : Variable} (hvar : ∀ s ∈ var.scalars, s.Fits) {style : Style}
    {depth : Nat} : Reads depth var.draft (ofJson? style) var := by
  obtain ⟨hty, hconstant⟩ := List.forall_mem_append.mp hvar
  rw [List.forall_mem_flatMap] at hty hconstant
  refine .record (by simp) ?_
  rintro r ⟨htyField, hlocalField, hconstantField, hvalueField, hnameField⟩
  have htyRead : r.optional "ty" (Ty.ofJson? style) = some var.ty :=
    htyField.optional
      (.option (fun t ht => Ty.reads_ofJson? (hty t (Option.mem_toList.mpr ht)))
        fun t _ => t.isNull_draft)
      Option.isNone_iff_eq_none.mp
  have hvalueRead : r.optional "constant_value" Constant.ofJson? = some var.constantValue :=
    hvalueField.optional
      (.option
        (fun c hc => .leaf (Constant.ofJson?_toJson (hconstant c (Option.mem_toList.mpr hc))))
        fun c _ => c.isNull_leaf)
      Option.isNone_iff_eq_none.mp
  have hnameRead : r.optional "name" asString? = some var.name :=
    hnameField.optional (.option (fun _ _ => .text) fun _ _ => rfl) Option.isNone_iff_eq_none.mp
  simp only [htyRead, hlocalField.required .bool, hconstantField.required .bool,
    hvalueRead, hnameRead, Option.bind_eq_bind, Option.bind_some]

end Variable

namespace SymbolId

theorem reads_ofJson? {id : SymbolId} (hid : ∀ s ∈ id.scalars, s.Fits) {depth : Nat} :
    Reads depth (.leaf id.toJson) ofJson? id :=
  .leaf (congrArg (Option.map SymbolId.mk) (asUInt?_nat (hid _ (List.mem_singleton_self _)).1))

end SymbolId

end KernelFront
