import KernelFront.Inference.Function
import KernelFront.Proofs.Dialogue
import KernelFront.Proofs.Traversal

/-! # What the rules make

A rule of inference refuses or makes an expression from visited parts. This module turns each rule
around: it lists the expressions that the rule can make, with the types that made it choose them.
What is kept by all rules is proved case by case over these lists.
-/

namespace KernelFront.Inference

variable {setting : Setting} {span : Span} {table : SymbolTable}

/-! ## What a rule can come to -/

section Outcomes

variable {α β : Type}

@[simp] theorem bind_eq_ok {outcome : Except TypeError α} {f : α → Except TypeError β}
    {result : β} :
    (outcome >>= f) = .ok result ↔ ∃ value, outcome = .ok value ∧ f value = .ok result := by
  cases outcome with
  | error e =>
      constructor
      · intro hresult
        cases hresult
      · rintro ⟨_, hvalue, _⟩
        cases hvalue
  | ok value =>
      constructor
      · exact fun hresult => ⟨value, rfl, hresult⟩
      · rintro ⟨_, hvalue, hresult⟩
        cases hvalue
        exact hresult

@[simp] theorem pure_eq_ok {value result : α} :
    (pure value : Except TypeError α) = .ok result ↔ value = result :=
  ⟨Except.ok.inj, congrArg Except.ok⟩

@[simp] theorem throw_ne_ok {error : TypeError} {result : α} :
    (throw error : Except TypeError α) ≠ .ok result := nofun

@[simp] theorem typeOf_eq_ok {e : Expr} {ty : Ty} :
    typeOf table e = .ok ty ↔ e.typeIn? table = some ty := by
  unfold typeOf
  split <;> rename_i hty <;> simp [hty]

@[simp] theorem reaches_apply {rule : SymbolTable → Except TypeError α} {before after : Scope}
    {result : α} :
    Pass.Reaches (apply rule) before result after ↔
      rule before.symbols = .ok result ∧ after = before := by
  simp only [apply, Pass.reaches_bind, Pass.reaches_get]
  constructor
  · rintro ⟨_, _, ⟨rfl, rfl⟩, hrule⟩
    split at hrule <;> rename_i houtcome
    · obtain ⟨rfl, rfl⟩ := Pass.reaches_pure.mp hrule
      exact ⟨houtcome, rfl⟩
    · exact absurd hrule Pass.not_reaches_throw
  · rintro ⟨hrule, rfl⟩
    refine ⟨_, _, ⟨rfl, rfl⟩, ?_⟩
    simp [hrule]

@[simp] theorem reaches_report {text : String} {before after : Scope} {result : Unit} :
    Pass.Reaches (report text) before result after ↔ after = before := by
  simp [report]

@[simp] theorem not_reaches_refuse {cause : Cause} {before after : Scope} {result : α} :
    ¬ Pass.Reaches (refuse cause span) before result after :=
  Pass.not_reaches_throw

end Outcomes

/-! ## Operators -/

section Operators

variable {left right operand value result : Expr}

/-- Negation converts its operand; the other operators keep it and its type. -/
inductive UnaryOutcome (span : Span) (operand : Expr) (table : SymbolTable) :
    UnaryOp → Expr → Prop where
  | negation : UnaryOutcome span operand table .not
      (.unaryOp (.typed span .bool) .not (operand.convert table .bool))
  | other {op : UnaryOp} {ty : Ty} (hop : op ≠ .not) (hty : operand.typeIn? table = some ty) :
      UnaryOutcome span operand table op (.unaryOp (.typed span ty) op operand)

theorem unaryOutcome_of_ok {op : UnaryOp} (hrule : typeUnaryOp span op operand table = .ok result) :
    UnaryOutcome span operand table op result := by
  cases op with
  | not =>
      cases hrule
      exact .negation
  | _ =>
      simp only [typeUnaryOp, bind_eq_ok, pure_eq_ok, typeOf_eq_ok] at hrule
      obtain ⟨ty, hty, rfl⟩ := hrule
      exact .other UnaryOp.noConfusion hty

/-- The two sides of a comparison have one type already, or are converted to their common type. -/
inductive CompareOutcome (span : Span) (left : Expr) (op : CmpOp) (right : Expr)
    (table : SymbolTable) : Expr → Prop where
  | same {ty : Ty} (hleft : left.typeIn? table = some ty) (hright : right.typeIn? table = some ty) :
      CompareOutcome span left op right table (.compare (.typed span .bool) left [op] [right])
  | joined {leftTy rightTy ty : Ty} (hleft : left.typeIn? table = some leftTy)
      (hright : right.typeIn? table = some rightTy) (hjoin : join leftTy rightTy span = .ok ty) :
      CompareOutcome span left op right table
        (.compare (.typed span .bool) (left.convert table ty) [op] [right.convert table ty])

theorem compareOutcome_of_ok {op : CmpOp}
    (hrule : typeCompare span left op right table = .ok result) :
    CompareOutcome span left op right table result := by
  simp only [typeCompare, bind_eq_ok, typeOf_eq_ok] at hrule
  obtain ⟨leftTy, hleft, rightTy, hright, hrule⟩ := hrule
  split at hrule
  next hsame =>
    cases hrule
    exact .same hleft (hsame ▸ hright)
  next =>
    simp only [bind_eq_ok, pure_eq_ok] at hrule
    obtain ⟨ty, hjoin, rfl⟩ := hrule
    exact .joined hleft hright hjoin

theorem exists_typeIndex (hrule : typeIndex span value table = .ok result) :
    ∃ ty, (isNothing table value ∧ ty = .newAxis ∨ value.typeIn? table = some ty) ∧
      result = .index (.typed span ty) value := by
  unfold typeIndex at hrule
  split at hrule
  next hnothing =>
    cases hrule
    exact ⟨.newAxis, .inl ⟨hnothing, rfl⟩, rfl⟩
  next =>
    simp only [bind_eq_ok, pure_eq_ok, typeOf_eq_ok] at hrule
    obtain ⟨ty, hty, rfl⟩ := hrule
    exact ⟨ty, .inr hty, rfl⟩

end Operators

/-! ## Attributes -/

/-- The attributes that the compiler knows of a value of some type, with their types. -/
inductive KnownAttribute (setting : Setting) (attr : String) (access : Access) :
    Ty → Ty → Prop where
  | part {bits : Nat} (hattr : ¬ (attr ≠ "real" ∧ attr ≠ "imag")) (haccess : access ≠ .store) :
      KnownAttribute setting attr access (.complex bits) (.float bits)
  | newAxis {module : String} {isNumpy : Bool}
      (hmember : setting.names.attribute? module attr = some .newAxis) :
      KnownAttribute setting attr access (.module module isNumpy) .newAxis
  | dtype {module : String} {isNumpy : Bool} {ty : Ty}
      (hmember : setting.names.attribute? module attr = some (.dtype ty)) :
      KnownAttribute setting attr access (.module module isNumpy) (.dtype ty)
  | member {module : String} {isNumpy : Bool}
      (hmember : setting.names.attribute? module attr = some .function ∨
        setting.names.attribute? module attr = some .other) :
      KnownAttribute setting attr access (.module module isNumpy)
        (.moduleAttribute module attr isNumpy)
  | object : KnownAttribute setting attr access .object .object

/-- An attribute is known, belongs to the metadata of an array, or is read at run time. -/
inductive AttributeOutcome (setting : Setting) (span : Span) (value : Expr) (attr : String)
    (access : Access) (table : SymbolTable) : Expr → Prop where
  | known {ty found : Ty} (hty : value.typeIn? table = some ty)
      (hknown : KnownAttribute setting attr access ty found) :
      AttributeOutcome setting span value attr access table
        (.attribute (.typed span found) value attr access)
  | metadata {elem : Ty} {layout : Layout} {field : ArrayAttr}
      (hty : value.typeIn? table = some (.array elem layout))
      (hfield : ArrayAttr.ofName? attr = some field) (haccess : access ≠ .store) :
      AttributeOutcome setting span value attr access table
        (.arrayAttribute (.typed span (metadataType elem layout.ndim field)) field value access)
  | dynamic (haccess : access = .load) :
      AttributeOutcome setting span value attr access table
        (Host.Function.getAttrString.call
          [value.convert table .object, literal (.str attr) span] span)

theorem attributeOutcome_of_ok {value result : Expr} {attr : String} {access : Access}
    (hrule : typeAttribute setting span value attr access table = .ok result) :
    AttributeOutcome setting span value attr access table result := by
  have hdynamic (hrule : dynamicAttribute span value attr access table = .ok result) :
      AttributeOutcome setting span value attr access table result := by
    cases access with
    | store => simp [dynamicAttribute] at hrule
    | load =>
        cases hrule
        exact .dynamic rfl
  simp only [typeAttribute, bind_eq_ok, typeOf_eq_ok] at hrule
  obtain ⟨ty, hty, hrule⟩ := hrule
  split at hrule
  · split at hrule
    · cases hrule
    next hattr =>
      split at hrule <;> cases hrule
      next haccess => exact .known hty (.part hattr haccess)
  · split at hrule
    next hmember =>
      cases hrule
      exact .known hty (.newAxis hmember)
    next hmember =>
      cases hrule
      exact .known hty (.dtype hmember)
    next hmember =>
      cases hrule
      exact .known hty (.member (.inl hmember))
    next hmember =>
      cases hrule
      exact .known hty (.member (.inr hmember))
    · exact hdynamic hrule
  · cases hrule
    exact .known hty .object
  · split at hrule
    · exact hdynamic hrule
    next hfield =>
      split at hrule <;> cases hrule
      next haccess => exact .metadata hty hfield haccess
  · exact hdynamic hrule

/-! ## Subscripts -/

section Subscripts

variable {value selector result : Expr} {access : Access}

/-- A selector written out, axis by axis: the selectors it consists of, with full slices for the
axes that none of them takes. -/
def Axes (selector : Expr) (dims : List Expr) : Prop :=
  ∃ (selectors : List Expr) (kinds : List SelectorKind) (fill missing : Nat) (span : Span),
    selectors? selector = some selectors ∧
      dims = expandEllipses fill (kinds.zip selectors) ++ List.replicate missing (fullSlice span)

theorem mem_expandEllipses {fill : Nat} {source : List (SelectorKind × Expr)} {dim : Expr}
    (hdim : dim ∈ expandEllipses fill source) :
    dim ∈ source.map Prod.snd ∨ ∃ span, dim = fullSlice span := by
  fun_induction expandEllipses fill source with
  | case1 => exact .inl hdim
  | case2 fill e source ih =>
      rcases List.mem_append.mp hdim with hslice | hrest
      · exact .inr ⟨e.span, List.eq_of_mem_replicate hslice⟩
      · exact (ih hrest).imp_left (List.mem_cons_of_mem _)
  | case3 fill kind e source _ ih =>
      rcases List.mem_cons.mp hdim with rfl | hrest
      · exact .inl List.mem_cons_self
      · exact (ih hrest).imp_left (List.mem_cons_of_mem _)

/-- What a selector consists of stands below it, or is the selector itself. -/
theorem mem_nodes_of_selectors? {selectors : List Expr}
    (hselectors : selectors? selector = some selectors) {node : Expr}
    (hnode : node ∈ Expr.nodesAll selectors) : node ∈ selector.nodes := by
  unfold selectors? at hselectors
  split at hselectors <;> cases hselectors
  · exact List.mem_cons_of_mem _ (List.mem_cons_of_mem _ hnode)
  · simpa only [Expr.nodesAll, List.append_nil] using hnode
  · simpa only [Expr.nodesAll, List.append_nil] using hnode
  · simpa only [Expr.nodesAll, List.append_nil] using hnode
  · exact List.mem_cons_of_mem _ hnode
  · exact List.mem_cons_of_mem _ hnode

/-- Writing out a selector adds nothing but full slices. -/
theorem Axes.mem_nodes {dims : List Expr} (haxes : Axes selector dims) {node : Expr}
    (hnode : node ∈ Expr.nodesAll dims) :
    node ∈ selector.nodes ∨ ∃ span, node = fullSlice span := by
  obtain ⟨selectors, kinds, fill, missing, span, hselectors, rfl⟩ := haxes
  obtain ⟨dim, hdim, hnode⟩ := Expr.mem_nodesAll.mp hnode
  have hslice {span : Span} (hdim : dim = fullSlice span) :
      node ∈ selector.nodes ∨ ∃ span, node = fullSlice span :=
    .inr ⟨span, List.mem_singleton.mp (show node ∈ (fullSlice span).nodes from hdim ▸ hnode)⟩
  rcases List.mem_append.mp hdim with hexpanded | hmissing
  · rcases mem_expandEllipses hexpanded with hwritten | ⟨span, hdim⟩
    · obtain ⟨⟨kind, e⟩, hzip, rfl⟩ := List.mem_map.mp hwritten
      have hselector := Expr.mem_nodesAll.mpr ⟨e, (List.of_mem_zip hzip).2, hnode⟩
      exact .inl (mem_nodes_of_selectors? hselectors hselector)
    · exact hslice hdim
  · exact hslice (List.eq_of_mem_replicate hmissing)

/-- With only its ellipses written out, a selector may leave axes at the end. -/
theorem axes_expandEllipses {selectors : List Expr}
    (hselectors : selectors? selector = some selectors) (kinds : List SelectorKind) (fill : Nat) :
    Axes selector (expandEllipses fill (kinds.zip selectors)) :=
  ⟨selectors, kinds, fill, 0, {}, hselectors, (List.append_nil _).symm⟩

/-- A subscript of an array is left to the host, with its selector as it is or written out, or
selects in memory along the axes written out; an element stands behind a pointer or in an array of
fixed size; a boxed value is subscripted by the host. -/
inductive SubscriptOutcome (span : Span) (value selector : Expr) (access : Access)
    (table : SymbolTable) : Expr → Prop where
  | host {elem : Ty} {layout : Layout} (hty : value.typeIn? table = some (.array elem layout)) :
      SubscriptOutcome span value selector access table
        (hostSubscript span value selector access table)
  | hostAxes {elem : Ty} {layout : Layout} {dims : List Expr} {place : Span}
      (hty : value.typeIn? table = some (.array elem layout)) (haxes : Axes selector dims) :
      SubscriptOutcome span value selector access table
        (hostSubscript span value (.extSlice (.typed place .object) dims) access table)
  | selection {elem : Ty} {layout : Layout} {rank : Nat} {dims : List Expr} {place : Span}
      (hty : value.typeIn? table = some (.array elem layout)) (haxes : Axes selector dims) :
      SubscriptOutcome span value selector access table
        (.subscript (.typed span (selectedType elem rank)) value
          (.extSlice (.typed place .object) dims) access)
  | pointed {elem : Ty} {note : Note} {index : Expr}
      (hty : value.typeIn? table = some (.pointer elem))
      (hselector : selector = .index note index) :
      SubscriptOutcome span value selector access table
        (.subscript (.typed span elem) value index access)
  | counted {elem : Ty} {size : Nat} {note : Note} {index : Expr}
      (hty : value.typeIn? table = some (.carray elem size))
      (hselector : selector = .index note index) :
      SubscriptOutcome span value selector access table
        (.subscript (.typed span elem) value index access)
  | object (hty : value.typeIn? table = some .object) :
      SubscriptOutcome span value selector access table
        (.subscript (.typed span .object) value selector access)

theorem exists_elementSubscript {elem : Ty}
    (hrule : elementSubscript span elem value selector access table = .ok result) :
    ∃ note index, selector = .index note index ∧
      result = .subscript (.typed span elem) value index access := by
  simp only [elementSubscript, bind_eq_ok] at hrule
  obtain ⟨_, _, hrule⟩ := hrule
  split at hrule
  · cases hrule
    exact ⟨_, _, rfl, rfl⟩
  · simp only [bind_eq_ok, throw_ne_ok, and_false, exists_false] at hrule

theorem subscriptOutcome_of_array {elem : Ty} {layout : Layout}
    (hty : value.typeIn? table = some (.array elem layout))
    (hrule : arraySubscript span elem layout.ndim value selector access table = .ok result) :
    SubscriptOutcome span value selector access table result := by
  unfold arraySubscript at hrule
  split at hrule
  · cases hrule
    exact .host hty
  next selectors hselectors =>
    simp only [bind_eq_ok] at hrule
    obtain ⟨kinds, _, hrule⟩ := hrule
    split at hrule
    · cases hrule
      exact .hostAxes hty (axes_expandEllipses hselectors kinds _)
    · split at hrule <;> cases hrule
      exact .selection hty ⟨selectors, kinds, _, _, _, hselectors, rfl⟩

theorem subscriptOutcome_of_ok
    (hrule : typeSubscript span value selector access table = .ok result) :
    SubscriptOutcome span value selector access table result := by
  simp only [typeSubscript, bind_eq_ok, typeOf_eq_ok] at hrule
  obtain ⟨ty, hty, hrule⟩ := hrule
  split at hrule
  · exact subscriptOutcome_of_array hty hrule
  · obtain ⟨note, index, hselector, rfl⟩ := exists_elementSubscript hrule
    exact .counted hty hselector
  · obtain ⟨note, index, hselector, rfl⟩ := exists_elementSubscript hrule
    exact .pointed hty hselector
  · cases hrule
    exact .object hty
  · cases hrule

end Subscripts

/-! ## Calls -/

section Calls

variable {func result : Expr} {args : List Expr} {keywords : List (String × Expr)}

/-- A builtin counts a range, asks an array for its length, or converts its argument. -/
inductive BuiltinOutcome (setting : Setting) (span : Span) (table : SymbolTable) :
    List Expr → Expr → Prop where
  | upTo {stop : Expr} : BuiltinOutcome setting span table [stop]
      (countedRange setting span (indexConstant setting 0 span) stop (indexConstant setting 1 span)
        table)
  | fromTo {start stop : Expr} : BuiltinOutcome setting span table [start, stop]
      (countedRange setting span start stop (indexConstant setting 1 span) table)
  | stepping {start stop step : Expr} : BuiltinOutcome setting span table [start, stop, step]
      (countedRange setting span start stop step table)
  | length {array : Expr} {elem : Ty} {layout : Layout}
      (hty : array.typeIn? table = some (.array elem layout)) :
      BuiltinOutcome setting span table [array]
        (.subscript (.typed span .intp)
          (.arrayAttribute (.typed span (.carray .intp layout.ndim)) .shape array .load)
          (indexConstant setting 0 span) .load)
  | int {value : Expr} : BuiltinOutcome setting span table [value]
      (value.convert table setting.options.intBuiltin)
  | float {value : Expr} : BuiltinOutcome setting span table [value]
      (value.convert table setting.options.floatBuiltin)

theorem builtinOutcome_of_length {array : Expr}
    (hrule : arrayLength setting span array table = .ok result) :
    BuiltinOutcome setting span table [array] result := by
  simp only [arrayLength, bind_eq_ok, typeOf_eq_ok] at hrule
  obtain ⟨ty, hty, hrule⟩ := hrule
  split at hrule <;> cases hrule
  exact .length hty

theorem builtinOutcome_of_ok {name : String}
    (hrule : typeBuiltinCall setting span name args keywords table = .ok result) :
    BuiltinOutcome setting span table args result := by
  simp only [typeBuiltinCall] at hrule
  split at hrule
  · cases hrule
  · split at hrule
    -- `range` and `xrange` are one builtin with two names.
    iterate 2
      · split at hrule <;> cases hrule
        · exact .upTo
        · exact .fromTo
        · exact .stepping
    · split at hrule
      · exact builtinOutcome_of_length hrule
      · cases hrule
    · split at hrule <;> cases hrule
      exact .int
    · split at hrule <;> cases hrule
      exact .float
    · cases hrule

theorem exists_directCall {entry : EntryPoint}
    (hrule : directCall span entry args table = .ok result) :
    entry.signature.args.length = args.length ∧
      result = .nativeCall (.typed span entry.signature.ret) entry.symbol entry.signature
        (List.zipWith (Expr.convert table) entry.signature.args args) := by
  simp only [directCall] at hrule
  split at hrule <;> cases hrule
  next hlength => exact ⟨Decidable.not_not.mp hlength, rfl⟩

/-- What is passed to a parameter is an argument converted to the type of the parameter. -/
theorem exists_of_mem_convertEach {params : List Ty} {converted : Expr}
    (hmem : converted ∈ List.zipWith (Expr.convert table) params args) :
    ∃ param ∈ params, ∃ arg ∈ args, converted = arg.convert table param := by
  obtain ⟨position, hposition⟩ := List.mem_iff_getElem?.mp hmem
  obtain ⟨param, arg, hparam, harg, rfl⟩ := List.getElem?_zipWith_eq_some.mp hposition
  exact ⟨param, List.mem_of_getElem? hparam, arg, List.mem_of_getElem? harg, rfl⟩

/-- A call is that of a builtin, is made directly, or goes through the host. -/
inductive CallOutcome (setting : Setting) (span : Span) (func : Expr) (args : List Expr)
    (keywords : List (String × Expr)) (table : SymbolTable) : Expr → Prop where
  | builtin {result : Expr} (hbuiltin : BuiltinOutcome setting span table args result) :
      CallOutcome setting span func args keywords table result
  | direct {entry : EntryPoint} {result : Expr}
      (hrule : directCall span entry args table = .ok result) :
      CallOutcome setting span func args keywords table result
  | host {ty : Ty} : CallOutcome setting span func args keywords table
      (hostCall span func args keywords ty table)

variable {before after : Scope}

theorem callOutcome_of_external {callee : String} {ty : SymbolTable → Ty}
    (hcall : Pass.Reaches (typeExternalCall span callee func args keywords ty) before result
      after) :
    after = before ∧ CallOutcome setting span func args keywords before.symbols result := by
  unfold typeExternalCall at hcall
  split at hcall
  · simp only [Pass.reaches_bind, reaches_apply, Pass.reaches_lift] at hcall
    obtain ⟨_, _, ⟨_, rfl⟩, answer, _, ⟨_, rfl⟩, hcall⟩ := hcall
    cases answer with
    | native entry =>
        simp only [Pass.reaches_bind, reaches_report, reaches_apply] at hcall
        obtain ⟨_, _, rfl, hrule, rfl⟩ := hcall
        exact ⟨rfl, .direct hrule⟩
    | host =>
        simp only [Pass.reaches_bind, reaches_report, reaches_apply, Except.ok.injEq] at hcall
        obtain ⟨_, _, rfl, rfl, rfl⟩ := hcall
        exact ⟨rfl, .host⟩
  · simp only [pure_bind, Pass.reaches_bind, reaches_report, reaches_apply,
      Except.ok.injEq] at hcall
    obtain ⟨_, _, rfl, rfl, rfl⟩ := hcall
    exact ⟨rfl, .host⟩

/-- A call leaves the scope as it is. -/
theorem callOutcome_of_reaches
    (hcall : Pass.Reaches (typeCall setting span func args keywords) before result after) :
    after = before ∧ CallOutcome setting span func args keywords before.symbols result := by
  have hhost (hcall : Pass.Reaches (apply fun table =>
      .ok (hostCall span func args keywords .object table)) before result after) :
      after = before ∧ CallOutcome setting span func args keywords before.symbols result := by
    simp only [reaches_apply, Except.ok.injEq] at hcall
    obtain ⟨rfl, rfl⟩ := hcall
    exact ⟨rfl, .host⟩
  simp only [typeCall, Pass.reaches_bind, reaches_apply] at hcall
  obtain ⟨ty, middle, ⟨_, rfl⟩, hcall⟩ := hcall
  split at hcall
  · obtain ⟨hrule, rfl⟩ := reaches_apply.mp hcall
    exact ⟨rfl, .builtin (builtinOutcome_of_ok hrule)⟩
  · split at hcall
    · simp only [Pass.reaches_bind, Pass.reaches_get] at hcall
      obtain ⟨_, _, ⟨rfl, rfl⟩, hcall⟩ := hcall
      split at hcall
      · obtain ⟨hrule, rfl⟩ := reaches_apply.mp hcall
        exact ⟨rfl, .direct hrule⟩
      · exact absurd hcall not_reaches_refuse
    · exact hhost hcall
  · exact callOutcome_of_external hcall
  · exact callOutcome_of_external hcall
  · exact hhost hcall

end Calls

/-! ## Boolean operations and comparisons -/

section Visits

variable {note : Note} {before after : Scope} {result : Expr}

/-- Only a boolean operation on two operands is visited. -/
theorem reaches_boolOp {op : BoolOp} {values : List Expr}
    (hreach : Pass.Reaches (inferExpr setting (.boolOp note op values)) before result after) :
    ∃ values', Pass.Reaches (inferAll setting values) before values' after ∧
      result = typeBoolOp note.span op values' after.symbols := by
  simp only [inferExpr] at hreach
  split at hreach
  · exact absurd hreach not_reaches_refuse
  · simp only [Pass.reaches_bind, reaches_apply, Except.ok.injEq] at hreach
    obtain ⟨values', middle, hvalues, rfl, rfl⟩ := hreach
    exact ⟨values', hvalues, rfl⟩

/-- Only a comparison with one other side is visited, and its sides one after the other. -/
theorem reaches_compare {left : Expr} {ops : List CmpOp} {comparators : List Expr}
    (hreach : Pass.Reaches (inferExpr setting (.compare note left ops comparators)) before result
      after) :
    ∃ op left' middle right', Pass.Reaches (inferExpr setting left) before left' middle ∧
      Pass.Reaches (inferAll setting comparators) middle [right'] after ∧
      typeCompare note.span left' op right' after.symbols = .ok result := by
  rcases ops with _ | ⟨op, _ | ⟨_, _⟩⟩
  · simp only [inferExpr, not_reaches_refuse] at hreach
  · rcases comparators with _ | ⟨right, _ | ⟨_, _⟩⟩
    · simp only [inferExpr, not_reaches_refuse] at hreach
    · simp only [inferExpr, Pass.reaches_bind, reaches_apply] at hreach
      obtain ⟨left', middle, hleft, right', last, hright, hrule, rfl⟩ := hreach
      refine ⟨op, left', middle, right', hleft, ?_, hrule⟩
      simp only [inferAll, Pass.reaches_bind, Pass.reaches_pure]
      exact ⟨right', _, hright, [], _, ⟨rfl, rfl⟩, rfl, rfl⟩
    · simp only [inferExpr, not_reaches_refuse] at hreach
  · simp only [inferExpr, not_reaches_refuse] at hreach

end Visits

/-! ## Functions -/

/-- An inferred function was given as many arguments as it has parameters. Its body is visited in
the scope of its parameters, and its result is settled in the scope that the body leaves. -/
theorem exists_inferFunction {func : FunctionDef} {signature : Signature} {inferred : Inferred}
    (hinfer : Pass.Succeeds (inferFunction setting func signature) inferred) :
    func.args.length = signature.args.length ∧ ∃ body ret middle scope,
      Pass.Reaches (inferBody setting func.body) (Scope.ofFunction func signature.args) body
        middle ∧
      Pass.Reaches (settleResult signature.ret func.span) middle ret scope ∧
      inferred = {
        signature := ⟨signature.args, ret⟩
        symbols := scope.symbols
        func := { func with body } } := by
  unfold inferFunction at hinfer
  split at hinfer
  · exact absurd hinfer Pass.not_succeeds_throw
  next hlength =>
    simp only [Pass.succeeds_bind] at hinfer
    obtain ⟨⟨⟨body, ret⟩, scope⟩, hrun, _, _, hinferred⟩ := hinfer
    change Pass.Reaches _ _ _ _ at hrun
    simp only [Pass.reaches_bind, Pass.reaches_pure, Prod.mk.injEq] at hrun
    obtain ⟨_, middle, hbody, _, _, hret, ⟨rfl, rfl⟩, rfl⟩ := hrun
    exact ⟨Decidable.not_not.mp hlength, body, ret, middle, scope, hbody, hret,
      Pass.succeeds_pure.mp hinferred⟩

end KernelFront.Inference
