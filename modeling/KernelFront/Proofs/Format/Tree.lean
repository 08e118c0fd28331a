import KernelFront.Format.Tree
import KernelFront.Proofs.Format.Ty
import KernelFront.Tree.Builder

/-! # Reading functions back

The drafts of expressions, statements and functions: their JSON forms with marks on the members that
hold the value that the reader takes for an absent one. Whatever the draft of a function allows is
read as the function that was written, provided that its numbers fit their fields. The reader goes
down by the depth of a value, so the induction over a tree is for every depth at once.
-/

namespace KernelFront

open Json

namespace Json

theorem asTag?_str {α : Type} {ofTag? : String → Option α} {tag : String} {a : α}
    (htag : ofTag? tag = some a) {depth : Nat} : Reads depth (.text tag) (asTag? ofTag?) a :=
  .leaf htag

end Json

theorem BinOp.reads_tag (op : BinOp) {depth : Nat} :
    Reads depth (.text op.tag) (asTag? ofTag?) op :=
  asTag?_str (by cases op <;> rfl)

theorem BoolOp.reads_tag (op : BoolOp) {depth : Nat} :
    Reads depth (.text op.tag) (asTag? ofTag?) op :=
  asTag?_str (by cases op <;> rfl)

theorem UnaryOp.reads_tag (op : UnaryOp) {depth : Nat} :
    Reads depth (.text op.tag) (asTag? ofTag?) op :=
  asTag?_str (by cases op <;> rfl)

theorem CmpOp.reads_tag (op : CmpOp) {depth : Nat} :
    Reads depth (.text op.tag) (asTag? ofTag?) op :=
  asTag?_str (by cases op <;> rfl)

theorem ArrayAttr.reads_tag (attr : ArrayAttr) {depth : Nat} :
    Reads depth (.text attr.tag) (asTag? ofTag?) attr :=
  asTag?_str (by cases attr <;> rfl)

theorem TempKind.reads_tag (kind : TempKind) {depth : Nat} :
    Reads depth (.text kind.tag) (asTag? ofTag?) kind :=
  asTag?_str (by cases kind <;> rfl)

theorem Access.reads_tag (a : Access) {depth : Nat} :
    Reads depth (.text a.tag) (asTag? ofTag?) a :=
  asTag?_str (by cases a <;> rfl)

/-- The context field of a record with its mark. -/
def Access.member (a : Access) : String × Bool × Draft := ("ctx", decide (a = .load), .text a.tag)

theorem Access.field?_eq {r : Record} {depth : Nat} {a : Access} (hfield : r.Holds depth a.member) :
    field? r = some a :=
  hfield.defaulted a.reads_tag of_decide_eq_true

theorem TempId.reads_ofJson? {id : TempId} (hid : ∀ s ∈ id.scalars, s.Fits) {depth : Nat} :
    Reads depth (.leaf id.toJson) ofJson? id :=
  .leaf (congrArg (Option.map TempId.mk) (asUInt?_nat (hid _ (List.mem_singleton_self _)).1))

/-! ## Spans and notes -/

namespace Span

/-- The JSON form of a span, none of whose members may be left out. -/
def draft (span : Span) : Draft :=
  .obj [("start", false, .leaf (.nat span.start)), ("end", false, .leaf (.nat span.stop))]

/-- The span field of a record with its mark. -/
def member (span : Span) : String × Bool × Draft := ("span", decide (span = {}), span.draft)

theorem reads_ofJson? {span : Span} (hspan : ∀ s ∈ span.scalars, s.Fits) {depth : Nat} :
    Reads depth span.draft ofJson? span := by
  obtain ⟨hstart, hrest⟩ := List.forall_mem_cons.mp hspan
  have hstop := List.forall_mem_singleton.mp hrest
  refine .record (by simp) ?_
  rintro r ⟨hstartField, hstopField⟩
  simp only [hstartField.required (.nat hstart.1), hstopField.required (.nat hstop.1),
    Option.bind_eq_bind, Option.bind_some]

theorem defaulted_member {span : Span} (hspan : ∀ s ∈ span.scalars, s.Fits) {r : Record}
    {depth : Nat} (hfield : r.Holds depth span.member) :
    r.defaulted "span" {} ofJson? = some span :=
  hfield.defaulted (reads_ofJson? hspan) of_decide_eq_true

end Span

namespace Binding

/-- The JSON form of what inference attached, with marks. -/
def draft : Binding → Draft
  | .symbol id => .tagged "Symbol" (.leaf id.toJson)
  | .value var => .tagged "Value" var.draft

theorem full_draft (binding : Binding) : binding.draft.full = binding.toJson := by
  cases binding with
  | symbol id => rfl
  | value var =>
      simp only [draft, Draft.tagged, Draft.full, Draft.fullMembers, Variable.full_draft, toJson,
        Json.tagged]

theorem isNull_draft (binding : Binding) : binding.draft.isNull = false := by
  cases binding <;> rfl

theorem reads_ofJson? {binding : Binding} (hbinding : ∀ s ∈ binding.scalars, s.Fits)
    {style : Style} {depth : Nat} : Reads depth binding.draft (ofJson? style) binding := by
  cases binding with
  | symbol id =>
      have hread : Reads depth (.leaf id.toJson) (fun v => (SymbolId.ofJson? v).map .symbol)
          (Binding.symbol id) :=
        (SymbolId.reads_ofJson? hbinding).map Binding.symbol
      exact (hread.tagged rfl fun _ _ => rfl).mono (Nat.le_succ depth)
  | value var =>
      have hread : Reads depth var.draft (fun v => (Variable.ofJson? style v).map .value)
          (Binding.value var) :=
        (Variable.reads_ofJson? hbinding).map Binding.value
      exact (hread.tagged rfl fun _ _ => rfl).mono (Nat.le_succ depth)

end Binding

namespace Note

/-- An expression's form with the fields that every expression has, with marks. -/
def wrap (n : Note) (form : Draft) : Draft :=
  .obj [("kind", false, form), n.span.member,
    ("binding", n.binding.isNone, .option Binding.draft n.binding),
    ("ty", n.ty.isNone, .option Ty.draft n.ty)]

theorem full_wrap (n : Note) (form : Draft) : (n.wrap form).full = Expr.wrap n form.full := by
  simp only [wrap, Span.member, Span.draft, Draft.full, Draft.fullMembers, Draft.full_option,
    Binding.full_draft, Ty.full_draft, Expr.wrap, Span.toJson]

end Note

namespace Expr

mutual

/-- The JSON form of an expression with marks. -/
def draft : Expr → Draft
  | .name n id a => n.wrap (.taggedRecord "Name" [("id", false, .text id), a.member])
  | .const n value => n.wrap (.tagged "Const" (.leaf value.toJson))
  | .binOp n left op right =>
      n.wrap (.taggedRecord "BinOp"
        [("left", false, draft left), ("op", false, .text op.tag), ("right", false, draft right)])
  | .boolOp n op values =>
      n.wrap (.taggedRecord "BoolOp"
        [("op", false, .text op.tag), ("values", false, .arr (draftAll values))])
  | .unaryOp n op operand =>
      n.wrap (.taggedRecord "UnaryOp"
        [("op", false, .text op.tag), ("operand", false, draft operand)])
  | .compare n left ops comparators =>
      n.wrap (.taggedRecord "Compare" [("left", false, draft left),
        ("ops", false, .texts (ops.map CmpOp.tag)),
        ("comparators", false, .arr (draftAll comparators))])
  | .call n func args keywords =>
      n.wrap (.taggedRecord "Call" [("func", false, draft func),
        ("args", args.isEmpty, .arr (draftAll args)),
        ("keywords", keywords.isEmpty, .arr (draftKeywords keywords))])
  | .attribute n value attr a =>
      n.wrap (.taggedRecord "Attribute"
        [("value", false, draft value), ("attr", false, .text attr), a.member])
  | .subscript n value selector a =>
      n.wrap (.taggedRecord "Subscript"
        [("value", false, draft value), ("slice", false, draft selector), a.member])
  | .index n value => n.wrap (.tagged "Index" (draft value))
  | .slice n lower upper step =>
      n.wrap (.taggedRecord "Slice" [("lower", lower.isNone, draftPart lower),
        ("upper", upper.isNone, draftPart upper), ("step", step.isNone, draftPart step)])
  | .extSlice n dims => n.wrap (.tagged "ExtSlice" (.arr (draftAll dims)))
  | .ellipsis n => n.wrap (.text "Ellipsis")
  | .tuple n elts a =>
      n.wrap (.taggedRecord "Tuple" [("elts", false, .arr (draftAll elts)), a.member])
  | .list n elts a =>
      n.wrap (.taggedRecord "List" [("elts", false, .arr (draftAll elts)), a.member])
  | .dict n keys values =>
      n.wrap (.taggedRecord "Dict"
        [("keys", false, .arr (draftAll keys)), ("values", false, .arr (draftAll values))])
  | .coercion n node target =>
      n.wrap (.taggedRecord "Coercion"
        [("node", false, draft node), ("target", false, target.draft)])
  | .deferredCoercion n node slot =>
      n.wrap (.taggedRecord "DeferredCoercion"
        [("node", false, draft node), ("slot", false, .leaf slot.toJson)])
  | .range n start stop step =>
      n.wrap (.taggedRecord "Range" [("start", false, draft start), ("stop", false, draft stop),
        ("step", false, draft step)])
  | .nativeCall n symbol signature args =>
      n.wrap (.taggedRecord "NativeCall" [("symbol", false, .text symbol),
        ("signature", false, signature.draft), ("args", false, .arr (draftAll args))])
  | .objectCall n func args keywords =>
      n.wrap (.taggedRecord "ObjectCall" [("func", false, draft func),
        ("args", false, .arr (draftAll args)),
        ("keywords", false, .arr (draftKeywords keywords))])
  | .arrayAttribute n attr array a =>
      n.wrap (.taggedRecord "ArrayAttribute"
        [("attr", false, .text attr.tag), ("array", false, draft array), a.member])
  | .dataPointer n array => n.wrap (.tagged "DataPointer" (draft array))
  | .objectTemp n node id =>
      n.wrap (.taggedRecord "ObjectTemp"
        [("node", false, draft node), ("id", id.isNone, .option (.leaf ·.toJson) id)])
  | .temp n id a => n.wrap (.taggedRecord "Temp" [("id", false, .leaf id.toJson), a.member])

/-- The JSON form of each expression with marks. -/
def draftAll : List Expr → List Draft
  | [] => []
  | e :: es => draft e :: draftAll es

/-- The JSON form of each keyword argument with marks. -/
def draftKeywords : List (String × Expr) → List Draft
  | [] => []
  | (arg, e) :: kws =>
      .obj [("arg", false, .text arg), ("value", false, draft e)] :: draftKeywords kws

/-- The JSON form of an optional part with marks. -/
def draftPart : Option Expr → Draft
  | none => .leaf .null
  | some e => draft e

end

mutual

theorem full_draft (e : Expr) : e.draft.full = e.toJson := by
  cases e with
  | name | const | ellipsis | temp =>
      simp only [draft, Note.full_wrap, toJson]
      rfl
  | binOp n first op second | subscript n first second =>
      simp only [draft, Note.full_wrap, toJson, ← full_draft first, ← full_draft second]
      rfl
  | range n first second third =>
      simp only [draft, Note.full_wrap, toJson, ← full_draft first, ← full_draft second,
        ← full_draft third]
      rfl
  | unaryOp n op part | «attribute» n part | index n part | deferredCoercion n part
  | arrayAttribute n op part | dataPointer n part =>
      simp only [draft, Note.full_wrap, toJson, ← full_draft part]
      rfl
  | coercion n part target =>
      simp only [draft, Note.full_wrap, toJson, ← full_draft part, ← target.full_draft]
      rfl
  | objectTemp n part id =>
      simp only [draft, Note.full_wrap, toJson, ← full_draft part]
      cases id <;> rfl
  | boolOp n op parts | extSlice n parts | tuple n parts | list n parts =>
      simp only [draft, Note.full_wrap, toJson, ← fullAll_draftAll parts]
      rfl
  | compare n first ops parts =>
      simp only [draft, Note.full_wrap, toJson, ← full_draft first, ← fullAll_draftAll parts,
        ← Draft.full_texts]
      rfl
  | dict n keys values =>
      simp only [draft, Note.full_wrap, toJson, ← fullAll_draftAll keys, ← fullAll_draftAll values]
      rfl
  | nativeCall n symbol signature parts =>
      simp only [draft, Note.full_wrap, toJson, ← fullAll_draftAll parts, ← signature.full_draft]
      rfl
  | call n func args keywords | objectCall n func args keywords =>
      simp only [draft, Note.full_wrap, toJson, ← full_draft func, ← fullAll_draftAll args,
        ← fullAll_draftKeywords keywords]
      rfl
  | slice n lower upper step =>
      simp only [draft, Note.full_wrap, toJson, ← full_draftPart lower, ← full_draftPart upper,
        ← full_draftPart step]
      rfl
termination_by structural e

theorem fullAll_draftAll (es : List Expr) : Draft.fullAll (draftAll es) = toJsonAll es := by
  cases es with
  | nil => rfl
  | cons e es => simp only [draftAll, Draft.fullAll, toJsonAll, full_draft e, fullAll_draftAll es]
termination_by structural es

theorem fullAll_draftKeywords (keywords : List (String × Expr)) :
    Draft.fullAll (draftKeywords keywords) = toJsonKeywords keywords := by
  cases keywords with
  | nil => rfl
  | cons keyword keywords =>
      obtain ⟨arg, e⟩ := keyword
      simp only [draftKeywords, Draft.fullAll, Draft.full, Draft.fullMembers, Draft.full_text,
        toJsonKeywords, full_draft e, fullAll_draftKeywords keywords]
termination_by structural keywords

theorem full_draftPart (part : Option Expr) : (draftPart part).full = toJsonPart part := by
  cases part with
  | none => rfl
  | some e => exact full_draft e
termination_by structural part

end

theorem isNull_draft (e : Expr) : e.draft.isNull = false := by
  cases e <;> rfl

theorem draftAll_eq_map (es : List Expr) : draftAll es = es.map draft := by
  induction es with
  | nil => rfl
  | cons e es ih => simp only [draftAll, List.map_cons, ih]

theorem draftPart_eq (part : Option Expr) : draftPart part = .option draft part := by
  cases part <;> rfl

variable {style : Style} {depth : Nat} {part : Json → Option Expr}

theorem reads_draftAll {es : List Expr} (hes : ∀ e ∈ es, Reads depth e.draft part e) :
    Reads depth (.arr (draftAll es)) (asList? part) es :=
  draftAll_eq_map es ▸ .list hes

theorem reads_draftPart {o : Option Expr} (ho : ∀ e ∈ o.toList, Reads depth e.draft part e) :
    Reads depth (draftPart o) (asOption? part) o :=
  draftPart_eq o ▸ .option (fun e he => ho e (Option.mem_toList.mpr he)) fun e _ => e.isNull_draft

theorem reads_draftKeywords {keywords : List (String × Expr)}
    (hkeywords : ∀ e ∈ keywords.map Prod.snd, Reads depth e.draft part e) :
    Reads depth (.arr (draftKeywords keywords)) (asList? (keyword? part)) keywords := by
  have heq : draftKeywords keywords = keywords.map fun keyword =>
      .obj [("arg", false, .text keyword.1), ("value", false, keyword.2.draft)] := by
    clear hkeywords
    induction keywords with
    | nil => rfl
    | cons keyword keywords ih => simp only [draftKeywords, List.map_cons, ih]
  rw [heq]
  refine .list fun keyword hkeyword => .record (by simp) ?_
  rintro r ⟨harg, hvalue⟩
  simp only [harg.required .text, hvalue.required (hkeywords _ (List.mem_map_of_mem hkeyword)),
    Option.bind_eq_bind, Option.bind_some]

theorem reads_ops (ops : List CmpOp) :
    Reads depth (.texts (ops.map CmpOp.tag)) (asList? (asTag? CmpOp.ofTag?)) ops := by
  rw [Draft.texts, List.map_map]
  exact .list fun op _ => op.reads_tag

theorem ofForm?_tagged {n : Note} {tag : String} {payload : Draft} {e : Expr}
    (hreads : Reads depth payload (ofPayload? style part n tag) e)
    (hnull : payload.isNull = false) :
    Reads (depth + 1) (.tagged tag payload) (ofForm? style part n) e := by
  refine hreads.tagged hnull fun v hv => ?_
  cases v with
  | null => exact absurd rfl hv
  | _ => rfl

/-- Reading an expression when its form is read. -/
theorem reads_wrap {n : Note} (hn : ∀ s ∈ n.scalars, s.Fits) {form : Draft} {e : Expr}
    (hform : Reads depth form (ofForm? style part n) e) :
    Reads depth (n.wrap form) (ofLayer? style part) e := by
  obtain ⟨hrest, hty⟩ := List.forall_mem_append.mp hn
  obtain ⟨hspan, hbinding⟩ := List.forall_mem_append.mp hrest
  rw [List.forall_mem_flatMap] at hbinding hty
  refine .record (by simp [Span.member]) ?_
  rintro r ⟨hformField, hspanField, hbindingField, htyField⟩
  have hbindingRead :
      r.defaulted "binding" none (asOption? (Binding.ofJson? style)) = some n.binding :=
    hbindingField.defaulted
      (.option (fun b hb => Binding.reads_ofJson? (hbinding b (Option.mem_toList.mpr hb)))
        fun b _ => b.isNull_draft)
      Option.isNone_iff_eq_none.mp
  have htyRead : r.defaulted "ty" none (asOption? (Ty.ofJson? style)) = some n.ty :=
    htyField.defaulted
      (.option (fun t ht => Ty.reads_ofJson? (hty t (Option.mem_toList.mpr ht)))
        fun t _ => t.isNull_draft)
      Option.isNone_iff_eq_none.mp
  simp only [Span.defaulted_member hspan hspanField, hbindingRead, htyRead, Option.bind_eq_bind,
    Option.bind_some, hformField.required hform]

/-- Reading a form with fields one after the other. -/
theorem reads_record {n : Note} (hn : ∀ s ∈ n.scalars, s.Fits) {tag : String}
    {fields : List (String × Bool × Draft)} {names : List String} {g : Record → Option Expr}
    {e : Expr}
    (hpayload : ofPayload? style part n tag = fun v => (v.fields? style names).bind g)
    (hnodup : (fields.map Prod.fst).Nodup)
    (hread : ∀ r : Record, fields.Forall (r.Holds depth) → g r = some e) :
    Reads (depth + 1) (n.wrap (.taggedRecord tag fields)) (ofLayer? style part) e :=
  reads_wrap hn (ofForm?_tagged (hpayload ▸ .fields style hnodup hread) rfl)

/-- Reading one layer of an expression whose parts are read. -/
theorem reads_layer {e : Expr} (hnote : ∀ s ∈ e.note.scalars, s.Fits)
    (hform : ∀ s ∈ e.formScalars, s.Fits)
    (hparts : ∀ child ∈ e.children, Reads depth child.draft part child) :
    Reads (depth + 1) e.draft (ofLayer? style part) e := by
  cases e with
  | ellipsis n => exact reads_wrap hnote (.leaf rfl)
  | const n value =>
      refine reads_wrap hnote (ofForm?_tagged ?_ value.isNull_leaf)
      exact .leaf (congrArg (Option.map (Expr.const n)) (Constant.ofJson?_toJson hform))
  | index n value =>
      have hvalue := hparts value List.mem_cons_self
      exact reads_wrap hnote (ofForm?_tagged (hvalue.map (Expr.index n)) value.isNull_draft)
  | dataPointer n array =>
      have harray := hparts array List.mem_cons_self
      exact reads_wrap hnote (ofForm?_tagged (harray.map (Expr.dataPointer n)) array.isNull_draft)
  | extSlice n dims =>
      have hdims := reads_draftAll hparts
      exact reads_wrap hnote (ofForm?_tagged (hdims.map (Expr.extSlice n)) rfl)
  | name n id a =>
      refine reads_record (n := n) hnote rfl (by simp [Access.member]) ?_
      rintro r ⟨hid, ha⟩
      simp only [hid.required .text, Access.field?_eq ha, Option.bind_eq_bind, Option.bind_some]
  | temp n id a =>
      refine reads_record (n := n) hnote rfl (by simp [Access.member]) ?_
      rintro r ⟨hid, ha⟩
      simp only [hid.required (TempId.reads_ofJson? hform), Access.field?_eq ha,
        Option.bind_eq_bind, Option.bind_some]
  | unaryOp n op operand =>
      have hchild := hparts operand List.mem_cons_self
      refine reads_record (n := n) hnote rfl (by simp) ?_
      rintro r ⟨hop, hoperand⟩
      simp only [hop.required op.reads_tag, hoperand.required hchild, Option.bind_eq_bind,
        Option.bind_some]
  | binOp n left op right =>
      obtain ⟨hfirst, hrest⟩ := List.forall_mem_cons.mp hparts
      have hsecond := List.forall_mem_singleton.mp hrest
      refine reads_record (n := n) hnote rfl (by simp) ?_
      rintro r ⟨hleft, hop, hright⟩
      simp only [hleft.required hfirst, hop.required op.reads_tag, hright.required hsecond,
        Option.bind_eq_bind, Option.bind_some]
  | boolOp n op values =>
      refine reads_record (n := n) hnote rfl (by simp) ?_
      rintro r ⟨hop, hvalues⟩
      simp only [hop.required op.reads_tag, hvalues.required (reads_draftAll hparts),
        Option.bind_eq_bind, Option.bind_some]
  | compare n left ops comparators =>
      obtain ⟨hfirst, hrest⟩ := List.forall_mem_cons.mp hparts
      refine reads_record (n := n) hnote rfl (by simp) ?_
      rintro r ⟨hleft, hops, hcomparators⟩
      simp only [hleft.required hfirst, hops.required (reads_ops ops),
        hcomparators.required (reads_draftAll hrest), Option.bind_eq_bind, Option.bind_some]
  | call n func args keywords =>
      obtain ⟨hfirst, hrest⟩ := List.forall_mem_cons.mp hparts
      obtain ⟨hargs, hkeywords⟩ := List.forall_mem_append.mp hrest
      refine reads_record (n := n) hnote rfl (by simp) ?_
      rintro r ⟨hfunc, hargsField, hkwField⟩
      simp only [hfunc.required hfirst,
        hargsField.defaulted (reads_draftAll hargs) List.isEmpty_iff.mp,
        hkwField.defaulted (reads_draftKeywords hkeywords) List.isEmpty_iff.mp,
        Option.bind_eq_bind, Option.bind_some]
  | objectCall n func args keywords =>
      obtain ⟨hfirst, hrest⟩ := List.forall_mem_cons.mp hparts
      obtain ⟨hargs, hkeywords⟩ := List.forall_mem_append.mp hrest
      refine reads_record (n := n) hnote rfl (by simp) ?_
      rintro r ⟨hfunc, hargsField, hkwField⟩
      simp only [hfunc.required hfirst, hargsField.required (reads_draftAll hargs),
        hkwField.required (reads_draftKeywords hkeywords), Option.bind_eq_bind, Option.bind_some]
  | «attribute» n value attr a =>
      have hchild := hparts value List.mem_cons_self
      refine reads_record (n := n) hnote rfl (by simp [Access.member]) ?_
      rintro r ⟨hvalue, hattr, ha⟩
      simp only [hvalue.required hchild, hattr.required .text, Access.field?_eq ha,
        Option.bind_eq_bind, Option.bind_some]
  | subscript n value selector a =>
      obtain ⟨hfirst, hrest⟩ := List.forall_mem_cons.mp hparts
      have hsecond := List.forall_mem_singleton.mp hrest
      refine reads_record (n := n) hnote rfl (by simp [Access.member]) ?_
      rintro r ⟨hvalue, hselector, ha⟩
      simp only [hvalue.required hfirst, hselector.required hsecond, Access.field?_eq ha,
        Option.bind_eq_bind, Option.bind_some]
  | slice n lower upper step =>
      obtain ⟨hrest, hstep⟩ := List.forall_mem_append.mp hparts
      obtain ⟨hlower, hupper⟩ := List.forall_mem_append.mp hrest
      refine reads_record (n := n) hnote rfl (by simp) ?_
      rintro r ⟨hlowerField, hupperField, hstepField⟩
      simp only [hlowerField.optional (reads_draftPart hlower) Option.isNone_iff_eq_none.mp,
        hupperField.optional (reads_draftPart hupper) Option.isNone_iff_eq_none.mp,
        hstepField.optional (reads_draftPart hstep) Option.isNone_iff_eq_none.mp,
        Option.bind_eq_bind, Option.bind_some]
  | tuple n elts a | list n elts a =>
      refine reads_record (n := n) hnote rfl (by simp [Access.member]) ?_
      rintro r ⟨helts, ha⟩
      simp only [helts.required (reads_draftAll hparts), Access.field?_eq ha, Option.bind_eq_bind,
        Option.bind_some]
  | dict n keys values =>
      obtain ⟨hkeys, hvalues⟩ := List.forall_mem_append.mp hparts
      refine reads_record (n := n) hnote rfl (by simp) ?_
      rintro r ⟨hkeysField, hvaluesField⟩
      simp only [hkeysField.required (reads_draftAll hkeys),
        hvaluesField.required (reads_draftAll hvalues), Option.bind_eq_bind, Option.bind_some]
  | coercion n node target =>
      have hchild := hparts node List.mem_cons_self
      refine reads_record (n := n) hnote rfl (by simp) ?_
      rintro r ⟨hnode, htarget⟩
      simp only [hnode.required hchild, htarget.required (Ty.reads_ofJson? hform),
        Option.bind_eq_bind, Option.bind_some]
  | deferredCoercion n node slot =>
      have hchild := hparts node List.mem_cons_self
      refine reads_record (n := n) hnote rfl (by simp) ?_
      rintro r ⟨hnode, hslot⟩
      simp only [hnode.required hchild, hslot.required (SymbolId.reads_ofJson? hform),
        Option.bind_eq_bind, Option.bind_some]
  | range n start stop step =>
      obtain ⟨hfirst, hrest⟩ := List.forall_mem_cons.mp hparts
      obtain ⟨hsecond, hlast⟩ := List.forall_mem_cons.mp hrest
      have hthird := List.forall_mem_singleton.mp hlast
      refine reads_record (n := n) hnote rfl (by simp) ?_
      rintro r ⟨hstart, hstop, hstep⟩
      simp only [hstart.required hfirst, hstop.required hsecond, hstep.required hthird,
        Option.bind_eq_bind, Option.bind_some]
  | nativeCall n symbol signature args =>
      refine reads_record (n := n) hnote rfl (by simp) ?_
      rintro r ⟨hsymbol, hsignature, hargs⟩
      simp only [hsymbol.required .text, hsignature.required (FunctionType.reads_ofJson? hform),
        hargs.required (reads_draftAll hparts), Option.bind_eq_bind, Option.bind_some]
  | arrayAttribute n attr array a =>
      have hchild := hparts array List.mem_cons_self
      refine reads_record (n := n) hnote rfl (by simp [Access.member]) ?_
      rintro r ⟨hattr, harray, ha⟩
      simp only [hattr.required attr.reads_tag, harray.required hchild, Access.field?_eq ha,
        Option.bind_eq_bind, Option.bind_some]
  | objectTemp n node id =>
      have hchild := hparts node List.mem_cons_self
      refine reads_record (n := n) hnote rfl (by simp) ?_
      rintro r ⟨hnode, hid⟩
      have hidRead : r.optional "id" TempId.ofJson? = some id :=
        hid.optional
          (.option (fun i hi => TempId.reads_ofJson? fun s hs =>
            hform s (List.mem_flatMap.mpr ⟨i, Option.mem_toList.mpr hi, hs⟩)) fun _ _ => rfl)
          Option.isNone_iff_eq_none.mp
      simp only [hnode.required hchild, hidRead, Option.bind_eq_bind, Option.bind_some]

theorem reads_draft (e : Expr) (he : ∀ s ∈ e.scalars, s.Fits) (depth : Nat) :
    Reads depth e.draft (ofDepth? style depth) e := by
  induction e using Expr.induct generalizing depth with
  | hstep e ih =>
      rw [scalars_eq] at he
      obtain ⟨hself, hparts⟩ := List.forall_mem_append.mp he
      obtain ⟨hnote, hform⟩ := List.forall_mem_append.mp hself
      rw [List.forall_mem_flatMap] at hparts
      cases depth with
      | zero => exact .zero
      | succ depth =>
          exact reads_layer hnote hform fun child hchild =>
            ih child hchild (hparts child hchild) depth

theorem reads_ofJson? {e : Expr} (he : ∀ s ∈ e.scalars, s.Fits) :
    Reads depth e.draft (ofJson? style) e :=
  fun v hallows _ => reads_draft e he v.depth v hallows (Nat.le_refl _)

end Expr

/-! ## Statements -/

namespace Stmt

/-- A statement's form with the field that every statement has, with marks. -/
def wrapDraft (span : Span) (form : Draft) : Draft := .obj [("kind", false, form), span.member]

theorem full_wrapDraft (span : Span) (form : Draft) :
    (wrapDraft span form).full = wrap span form.full := rfl

mutual

/-- The JSON form of a statement with marks. -/
def draft : Stmt → Draft
  | .assign s targets value =>
      wrapDraft s (.taggedRecord "Assign"
        [("targets", false, .arr (Expr.draftAll targets)), ("value", false, value.draft)])
  | .augAssign s target op value =>
      wrapDraft s (.taggedRecord "AugAssign" [("target", false, target.draft),
        ("op", false, .text op.tag), ("value", false, value.draft)])
  | .forIn s target iter body orelse index =>
      wrapDraft s (.taggedRecord "For" [("target", false, target.draft),
        ("iter", false, iter.draft), ("body", false, .arr (draftAll body)),
        ("orelse", orelse.isEmpty, .arr (draftAll orelse)),
        ("index", index.isNone, Expr.draftPart index)])
  | .whileLoop s test body orelse =>
      wrapDraft s (.taggedRecord "While" [("test", false, test.draft),
        ("body", false, .arr (draftAll body)), ("orelse", orelse.isEmpty, .arr (draftAll orelse))])
  | .branch s test body orelse =>
      wrapDraft s (.taggedRecord "If" [("test", false, test.draft),
        ("body", false, .arr (draftAll body)), ("orelse", orelse.isEmpty, .arr (draftAll orelse))])
  | .ret s value =>
      wrapDraft s (.taggedRecord "Return" [("value", value.isNone, Expr.draftPart value)])
  | .expr s value => wrapDraft s (.tagged "Expr" value.draft)
  | .print s values dest newline =>
      wrapDraft s (.taggedRecord "Print" [("values", false, .arr (Expr.draftAll values)),
        ("dest", dest.isNone, Expr.draftPart dest), ("nl", newline, .leaf (.bool newline))])
  | .global s names => wrapDraft s (.taggedRecord "Global" [("names", false, .texts names)])
  | .pass s => wrapDraft s (.text "Pass")
  | .break s => wrapDraft s (.text "Break")
  | .continue s => wrapDraft s (.text "Continue")

/-- The JSON form of each statement with marks. -/
def draftAll : List Stmt → List Draft
  | [] => []
  | s :: ss => draft s :: draftAll ss

end

mutual

theorem full_draft (stmt : Stmt) : stmt.draft.full = stmt.toJson := by
  have hpart (part : Option Expr) : (Expr.draftPart part).full = .option Expr.toJson part := by
    rw [Expr.full_draftPart]
    cases part <;> rfl
  cases stmt with
  | assign s targets value =>
      simp only [draft, full_wrapDraft, toJson, ← Expr.fullAll_draftAll, ← Expr.full_draft]
      rfl
  | augAssign s target op value =>
      simp only [draft, full_wrapDraft, toJson, ← Expr.full_draft]
      rfl
  | forIn s target iter body orelse index =>
      simp only [draft, full_wrapDraft, toJson, ← Expr.full_draft target, ← Expr.full_draft iter,
        ← fullAll_draftAll body, ← fullAll_draftAll orelse, ← hpart]
      rfl
  | whileLoop s test body orelse | branch s test body orelse =>
      simp only [draft, full_wrapDraft, toJson, ← Expr.full_draft, ← fullAll_draftAll body,
        ← fullAll_draftAll orelse]
      rfl
  | ret s value =>
      simp only [draft, full_wrapDraft, toJson, ← hpart]
      rfl
  | expr s value =>
      simp only [draft, full_wrapDraft, toJson, ← Expr.full_draft]
      rfl
  | print s values dest newline =>
      simp only [draft, full_wrapDraft, toJson, ← Expr.fullAll_draftAll, ← hpart]
      rfl
  | global s names =>
      simp only [draft, full_wrapDraft, toJson, ← Draft.full_texts]
      rfl
  | pass | «break» | «continue» => rfl
termination_by structural stmt

theorem fullAll_draftAll (body : List Stmt) : Draft.fullAll (draftAll body) = toJsonAll body := by
  cases body with
  | nil => rfl
  | cons stmt body =>
      simp only [draftAll, Draft.fullAll, toJsonAll, full_draft stmt, fullAll_draftAll body]
termination_by structural body

end

theorem draftAll_eq_map (body : List Stmt) : draftAll body = body.map draft := by
  induction body with
  | nil => rfl
  | cons stmt body ih => simp only [draftAll, List.map_cons, ih]

variable {style : Style} {depth : Nat} {part : Json → Option Stmt} {span : Span}

theorem reads_draftAll_of {body : List Stmt} (hbody : ∀ s ∈ body, Reads depth s.draft part s) :
    Reads depth (.arr (draftAll body)) (asList? part) body :=
  draftAll_eq_map body ▸ .list hbody

theorem reads_exprs {es : List Expr} (hes : ∀ e ∈ es, ∀ s ∈ e.scalars, s.Fits) :
    Reads depth (.arr (Expr.draftAll es)) (asList? (Expr.ofJson? style)) es :=
  Expr.reads_draftAll fun e he => Expr.reads_ofJson? (hes e he)

theorem reads_part {o : Option Expr} (ho : ∀ e ∈ o.toList, ∀ s ∈ e.scalars, s.Fits) :
    Reads depth (Expr.draftPart o) (asOption? (Expr.ofJson? style)) o :=
  Expr.reads_draftPart fun e he => Expr.reads_ofJson? (ho e he)

/-- Reading a statement when its form is read. -/
theorem reads_wrapDraft (hspan : ∀ s ∈ span.scalars, s.Fits) {form : Draft} {stmt : Stmt}
    (hform : Reads depth form (ofForm? style part span) stmt) :
    Reads depth (wrapDraft span form) (ofLayer? style part) stmt := by
  refine .record (by simp [Span.member]) ?_
  rintro r ⟨hformField, hspanField⟩
  simp only [Span.defaulted_member hspan hspanField, hformField.required hform,
    Option.bind_eq_bind, Option.bind_some]

theorem ofForm?_tagged {tag : String} {payload : Draft} {stmt : Stmt}
    (hreads : Reads depth payload (ofPayload? style part span tag) stmt)
    (hnull : payload.isNull = false) :
    Reads (depth + 1) (.tagged tag payload) (ofForm? style part span) stmt := by
  refine hreads.tagged hnull fun v hv => ?_
  cases v with
  | null => exact absurd rfl hv
  | _ => rfl

/-- Reading a form with fields one after the other. -/
theorem reads_record (hspan : ∀ s ∈ span.scalars, s.Fits) {tag : String}
    {fields : List (String × Bool × Draft)} {names : List String} {g : Record → Option Stmt}
    {stmt : Stmt}
    (hpayload : ofPayload? style part span tag = fun v => (v.fields? style names).bind g)
    (hnodup : (fields.map Prod.fst).Nodup)
    (hread : ∀ r : Record, fields.Forall (r.Holds depth) → g r = some stmt) :
    Reads (depth + 1) (wrapDraft span (.taggedRecord tag fields)) (ofLayer? style part) stmt :=
  reads_wrapDraft hspan (ofForm?_tagged (hpayload ▸ .fields style hnodup hread) rfl)

theorem reads_guarded (style : Style) {test : Expr} {body orelse : List Stmt}
    (htest : ∀ s ∈ test.scalars, s.Fits) (hbody : ∀ s ∈ body, Reads depth s.draft part s)
    (horelse : ∀ s ∈ orelse, Reads depth s.draft part s) :
    Reads depth
      (.obj [("test", false, test.draft), ("body", false, .arr (draftAll body)),
        ("orelse", orelse.isEmpty, .arr (draftAll orelse))])
      (guarded? style part) (test, body, orelse) := by
  refine .fields style (by simp) ?_
  rintro r ⟨htestField, hbodyField, horelseField⟩
  simp only [htestField.required (Expr.reads_ofJson? htest),
    hbodyField.required (reads_draftAll_of hbody),
    horelseField.defaulted (reads_draftAll_of horelse) List.isEmpty_iff.mp,
    Option.bind_eq_bind, Option.bind_some]

/-- Reading one layer of a statement whose bodies are read. -/
theorem reads_layer {stmt : Stmt} (hself : ∀ s ∈ stmt.scalars, s.Fits)
    (hbodies : ∀ body ∈ stmt.bodies, ∀ inner ∈ body, Reads depth inner.draft part inner) :
    Reads (depth + 1) stmt.draft (ofLayer? style part) stmt := by
  obtain ⟨hspan, hexprs⟩ := List.forall_mem_append.mp hself
  rw [List.forall_mem_flatMap] at hexprs
  cases stmt with
  | pass | «break» | «continue» => exact reads_wrapDraft hspan (.leaf rfl)
  | expr span value =>
      have hvalue : Reads depth value.draft (Expr.ofJson? style) value :=
        Expr.reads_ofJson? (hexprs value List.mem_cons_self)
      exact reads_wrapDraft hspan (ofForm?_tagged (hvalue.map (Stmt.expr span)) value.isNull_draft)
  | ret span value =>
      refine reads_record hspan rfl (by simp) fun r hvalue => ?_
      have hread : r.optional "value" (Expr.ofJson? style) = some value :=
        Record.Holds.optional hvalue (reads_part hexprs) Option.isNone_iff_eq_none.mp
      simp only [hread, Option.bind_eq_bind, Option.bind_some, Stmt.span]
  | global span names =>
      refine reads_record hspan rfl (by simp) fun r hnames => ?_
      have hread : r.required "names" (asList? asString?) = some names :=
        Record.Holds.required hnames .texts
      simp only [hread, Option.bind_eq_bind, Option.bind_some, Stmt.span]
  | assign span targets value =>
      obtain ⟨htargets, hvalue⟩ := List.forall_mem_append.mp hexprs
      have hlast := hvalue value List.mem_cons_self
      refine reads_record hspan rfl (by simp) ?_
      rintro r ⟨htargetsField, hvalueField⟩
      simp only [htargetsField.required (reads_exprs htargets),
        hvalueField.required (Expr.reads_ofJson? hlast), Option.bind_eq_bind, Option.bind_some,
        Stmt.span]
  | augAssign span target op value =>
      obtain ⟨htarget, hvalue⟩ := List.forall_mem_cons.mp hexprs
      have hlast := hvalue value List.mem_cons_self
      refine reads_record hspan rfl (by simp) ?_
      rintro r ⟨htargetField, hop, hvalueField⟩
      simp only [htargetField.required (Expr.reads_ofJson? htarget), hop.required op.reads_tag,
        hvalueField.required (Expr.reads_ofJson? hlast), Option.bind_eq_bind, Option.bind_some,
        Stmt.span]
  | print span values dest newline =>
      obtain ⟨hdest, hvalues⟩ := List.forall_mem_append.mp hexprs
      refine reads_record hspan rfl (by simp) ?_
      rintro r ⟨hvaluesField, hdestField, hnewline⟩
      simp only [hvaluesField.required (reads_exprs hvalues),
        hdestField.defaulted (reads_part hdest) Option.isNone_iff_eq_none.mp,
        hnewline.defaulted .bool id, Option.bind_eq_bind, Option.bind_some, Stmt.span]
  | whileLoop span test body orelse =>
      obtain ⟨hbody, hrest⟩ := List.forall_mem_cons.mp hbodies
      have horelse := List.forall_mem_singleton.mp hrest
      have hguarded := reads_guarded style (hexprs test List.mem_cons_self) hbody horelse
      exact reads_wrapDraft hspan (ofForm?_tagged (hguarded.map _) rfl)
  | branch span test body orelse =>
      obtain ⟨hbody, hrest⟩ := List.forall_mem_cons.mp hbodies
      have horelse := List.forall_mem_singleton.mp hrest
      have hguarded := reads_guarded style (hexprs test List.mem_cons_self) hbody horelse
      exact reads_wrapDraft hspan (ofForm?_tagged (hguarded.map _) rfl)
  | forIn span target iter body orelse index =>
      obtain ⟨hbody, hrest⟩ := List.forall_mem_cons.mp hbodies
      have horelse := List.forall_mem_singleton.mp hrest
      obtain ⟨htarget, hinner⟩ := List.forall_mem_cons.mp hexprs
      obtain ⟨hiter, hindex⟩ := List.forall_mem_cons.mp hinner
      refine reads_record hspan rfl (by simp) ?_
      rintro r ⟨htargetField, hiterField, hbodyField, horelseField, hindexField⟩
      simp only [htargetField.required (Expr.reads_ofJson? htarget),
        hiterField.required (Expr.reads_ofJson? hiter),
        hbodyField.required (reads_draftAll_of hbody),
        horelseField.defaulted (reads_draftAll_of horelse) List.isEmpty_iff.mp,
        hindexField.defaulted (reads_part hindex) Option.isNone_iff_eq_none.mp,
        Option.bind_eq_bind, Option.bind_some, Stmt.span]

mutual

theorem reads_draft (stmt : Stmt) (hstmt : ∀ inner ∈ stmt.nested, ∀ s ∈ inner.scalars, s.Fits)
    (depth : Nat) : Reads depth stmt.draft (ofDepth? style depth) stmt := by
  cases depth with
  | zero => exact .zero
  | succ depth =>
      cases stmt with
      | forIn span target iter body orelse index =>
          obtain ⟨hself, hinner⟩ := List.forall_mem_cons.mp hstmt
          obtain ⟨hbody, horelse⟩ := List.forall_mem_append.mp hinner
          exact reads_layer hself (List.forall_mem_cons.mpr ⟨reads_draftAll body hbody depth,
            List.forall_mem_singleton.mpr (reads_draftAll orelse horelse depth)⟩)
      | whileLoop span test body orelse | branch span test body orelse =>
          obtain ⟨hself, hinner⟩ := List.forall_mem_cons.mp hstmt
          obtain ⟨hbody, horelse⟩ := List.forall_mem_append.mp hinner
          exact reads_layer hself (List.forall_mem_cons.mpr ⟨reads_draftAll body hbody depth,
            List.forall_mem_singleton.mpr (reads_draftAll orelse horelse depth)⟩)
      | _ => exact reads_layer (hstmt _ List.mem_cons_self) (List.forall_mem_nil _)
termination_by structural stmt

theorem reads_draftAll (body : List Stmt)
    (hbody : ∀ inner ∈ nestedBody body, ∀ s ∈ inner.scalars, s.Fits) (depth : Nat) :
    ∀ stmt ∈ body, Reads depth stmt.draft (ofDepth? style depth) stmt := by
  cases body with
  | nil => exact List.forall_mem_nil _
  | cons stmt body =>
      obtain ⟨hstmt, hrest⟩ := List.forall_mem_append.mp hbody
      exact List.forall_mem_cons.mpr ⟨reads_draft stmt hstmt depth, reads_draftAll body hrest depth⟩
termination_by structural body

end

theorem reads_body {body : List Stmt}
    (hbody : ∀ inner ∈ nestedBody body, ∀ s ∈ inner.scalars, s.Fits) :
    Reads depth (.arr (draftAll body)) (asList? (ofJson? style)) body := by
  refine reads_draftAll_of fun stmt hstmt v hallows _ => ?_
  exact reads_draftAll body hbody v.depth stmt hstmt v hallows (Nat.le_refl _)

end Stmt

/-! ## Functions -/

namespace ErrorReturn

/-- The JSON form of the value returned on errors, with marks. -/
def draft (r : ErrorReturn) : Draft := .obj [("value", r.value.isNone, Expr.draftPart r.value)]

theorem full_draft (r : ErrorReturn) : r.draft.full = r.toJson := by
  simp only [draft, Draft.full, Draft.fullMembers, Expr.full_draftPart, toJson]
  cases r.value <;> rfl

theorem reads_ofJson? {r : ErrorReturn} (hr : ∀ e ∈ r.value.toList, ∀ s ∈ e.scalars, s.Fits)
    {style : Style} {depth : Nat} : Reads depth r.draft (ofJson? style) r := by
  refine .record (by simp) fun record hvalue => ?_
  have hread : record.optional "value" (Expr.ofJson? style) = some r.value :=
    Record.Holds.optional hvalue (Stmt.reads_part hr) Option.isNone_iff_eq_none.mp
  simp only [hread, Option.bind_eq_bind, Option.bind_some]

end ErrorReturn

namespace TempDecl

/-- The JSON form of a temporary with marks. -/
def draft (decl : TempDecl) : Draft :=
  .obj [("id", false, .leaf decl.id.toJson), ("ty", false, decl.ty.draft),
    ("kind", false, .text decl.kind.tag)]

theorem full_draft (decl : TempDecl) : decl.draft.full = decl.toJson := by
  simp only [draft, Draft.full, Draft.fullMembers, Ty.full_draft, Draft.full_text, toJson]

theorem reads_ofJson? {decl : TempDecl} (hdecl : ∀ s ∈ decl.scalars, s.Fits) {style : Style}
    {depth : Nat} : Reads depth decl.draft (ofJson? style) decl := by
  obtain ⟨hid, hty⟩ := List.forall_mem_append.mp hdecl
  refine .record (by simp) ?_
  rintro r ⟨hidField, htyField, hkindField⟩
  simp only [hidField.required (TempId.reads_ofJson? hid),
    htyField.required (Ty.reads_ofJson? hty), hkindField.required decl.kind.reads_tag,
    Option.bind_eq_bind, Option.bind_some]

end TempDecl

namespace FunctionDef

/-- The JSON form of a function with marks on the members that hold what the reader takes for an
absent one. -/
def draft (f : FunctionDef) : Draft :=
  .obj [("name", false, .text f.name), ("args", false, .texts f.args),
    ("body", false, .arr (Stmt.draftAll f.body)), f.span.member,
    ("error_return", f.errorReturn.isNone, .option ErrorReturn.draft f.errorReturn),
    ("temps", f.temps.isEmpty, .arr (f.temps.map TempDecl.draft))]

theorem full_draft (f : FunctionDef) : f.draft.full = f.toJson := by
  have htemps : Draft.fullAll (f.temps.map TempDecl.draft) = f.temps.map TempDecl.toJson := by
    rw [Draft.fullAll_eq_map, List.map_map]
    exact List.map_congr_left fun decl _ => decl.full_draft
  simp only [draft, Draft.full, Draft.fullMembers, Draft.full_text, Draft.full_texts,
    Stmt.fullAll_draftAll, Draft.full_option, ErrorReturn.full_draft, htemps, Span.member,
    Span.draft, toJson, Span.toJson]

/-- Whatever the draft of a function allows is read as that function. -/
theorem reads_ofJson? {f : FunctionDef} (hf : ∀ s ∈ f.scalars, s.Fits) {style : Style}
    {depth : Nat} : Reads depth f.draft (ofJson? style) f := by
  obtain ⟨hrest, htemps⟩ := List.forall_mem_append.mp hf
  obtain ⟨hrest, hfailure⟩ := List.forall_mem_append.mp hrest
  obtain ⟨hspan, hstatements⟩ := List.forall_mem_append.mp hrest
  rw [List.forall_mem_flatMap] at htemps hfailure hstatements
  refine .record (by simp [Span.member]) ?_
  rintro r ⟨hname, hargs, hbody, hspanField, herror, htempsField⟩
  have herrorRead :
      r.defaulted "error_return" none (asOption? (ErrorReturn.ofJson? style)) =
        some f.errorReturn := by
    refine herror.defaulted (.option (fun value hvalue => ?_) fun _ _ => rfl)
      Option.isNone_iff_eq_none.mp
    refine ErrorReturn.reads_ofJson? fun e he => hfailure e ?_
    rw [failureExpr, hvalue]
    exact he
  simp only [hname.required .text, hargs.required .texts,
    hbody.required (Stmt.reads_body hstatements), Span.defaulted_member hspan hspanField,
    herrorRead, htempsField.defaulted (.list fun decl hdecl =>
      TempDecl.reads_ofJson? (htemps decl hdecl)) List.isEmpty_iff.mp,
    Option.bind_eq_bind, Option.bind_some]

/-- A function whose doubles are finite is read back from its JSON form, and from every form that
lacks some of the members that hold the value taken for an absent one. -/
theorem readBack_of_finite {f : FunctionDef} (hrange : ∀ s ∈ f.scalars, s.InRange)
    (hfinite : ∀ s ∈ f.scalars, s.IsFinite) (style : Style) :
    ofJson? style f.toJson = some f ∧
      f.draft.full = f.toJson ∧ ∀ v, f.draft.Allows v → ofJson? style v = some f := by
  have hreads (v : Json) (hallows : f.draft.Allows v) : ofJson? style v = some f :=
    reads_ofJson? (fun s hs => ⟨hrange s hs, hfinite s hs⟩) v hallows (Nat.le_refl _)
  exact ⟨hreads _ (f.full_draft ▸ f.draft.allows_full), f.full_draft, hreads⟩

end FunctionDef

/-- A lowered function with a binding, a recorded constant, a temporary and a value for errors. -/
def boxingSample : FunctionDef where
  name := "f"
  args := ["x"]
  body :=
    [.assign ⟨4, 11⟩ [.name { span := ⟨4, 5⟩, binding := some (.symbol ⟨1⟩) } "y" .store]
      (.const (.annotated ⟨8, 11⟩ .float64) (.float ⟨0x3FF8000000000000⟩)),
     .forIn {} (.temp (.annotated {} .int64) ⟨0⟩ .store)
      (.range (.annotated {} .range) (Builder.int 0) (Builder.int 3) (Builder.int (-1)))
      [.print {} [Builder.load "y"] none true] [] (some (.temp (.annotated {} .int64) ⟨1⟩ .load)),
     .ret {} (some (.objectTemp (.annotated {} .object)
      (.const (.annotated {} (.tuple 1 (some [.nothing]))) (.tuple [.nothing])) (some ⟨2⟩)))]
  errorReturn := some ⟨some (.const (.annotated {} .object) .null)⟩
  temps := [⟨⟨0⟩, .int64, .index⟩, ⟨⟨1⟩, .int64, .index⟩, ⟨⟨2⟩, .object, .object⟩]

theorem readBack_of_finite_boxingSample :
    FunctionDef.ofJson? .compact boxingSample.toJson = some boxingSample ∧
      FunctionDef.ofJson? .compact boxingSample.draft.least = some boxingSample := by
  have hread := FunctionDef.readBack_of_finite (f := boxingSample) (by decide +kernel)
    (by decide +kernel) .compact
  exact ⟨hread.1, hread.2.2 _ (Draft.allows_least _)⟩

end KernelFront
