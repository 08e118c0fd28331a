import KernelFront.Proofs.Guarded
import KernelFront.Proofs.Inference.Calls
import KernelFront.Proofs.Inference.Spelling
import KernelFront.Proofs.Ranks

/-! # Valid expressions

An expression is valid for a table of some size if every type that it carries is ranked and every
symbol that it refers to is in the table. The types in a table are ranked too, and the host's `None`
is a boxed value, so that a selector which is `None` is not an integer. Each rule builds a valid
expression from valid parts: wherever the dimensions of an array are counted anew, one is left, or
the array becomes an element.
-/

namespace KernelFront

/-- The type of a binding is ranked, and `None` is a boxed value. -/
structure Variable.Valid (var : Variable) : Prop where
  ranked : ∀ ty, var.ty = some ty → ty.Ranked
  nothing : var.constantValue = some .nothing → var.ty = some .object

/-- All bindings of a table are valid. -/
def SymbolTable.Valid (table : SymbolTable) : Prop := ∀ var ∈ table.vars, var.Valid

/-- The types of a function are ranked. -/
structure FunctionType.Ranked (signature : FunctionType) : Prop where
  args : ∀ arg ∈ signature.args, arg.Ranked
  ret : signature.ret.Ranked

theorem SymbolTable.Valid.get? {table : SymbolTable} (htable : table.Valid) {id : SymbolId}
    {var : Variable} (hvar : table.get? id = some var) : var.Valid :=
  htable var (List.mem_of_getElem? hvar)

/-- A binding that is not bound to a constant. -/
theorem Variable.valid_of_ranked {var : Variable} (hty : ∀ ty ∈ var.ty, ty.Ranked)
    (hvalue : var.constantValue = none) : var.Valid := by
  refine ⟨hty, fun hnothing => ?_⟩
  rw [hvalue] at hnothing
  cases hnothing

theorem Variable.valid_typed {ty : Ty} (hty : ty.Ranked) : (Variable.typed ty).Valid := by
  refine valid_of_ranked ?_ rfl
  rintro _ ⟨⟩
  exact hty

theorem Variable.valid_constant {value : Constant} {ty : Ty} (hty : ty.Ranked)
    (hnothing : value = .nothing → ty = .object) : (Variable.constant value ty).Valid := by
  refine ⟨?_, fun hvalue => congrArg some (hnothing (Option.some.inj hvalue))⟩
  rintro _ ⟨⟩
  exact hty

namespace Expr

/-- The types in the form of an expression. -/
def formTypes : Expr → List Ty
  | .coercion _ _ target => [target]
  | .nativeCall _ _ signature _ => signature.ret :: signature.args
  | _ => []

/-- The types that an expression carries are ranked, and the symbols that it refers to are in a
table of a size. -/
structure Valid (size : Nat) (e : Expr) : Prop where
  note : ∀ ty, e.ty = some ty → ty.Ranked
  own : ∀ var, e.binding = some (.value var) → var.Valid
  form : ∀ ty ∈ e.formTypes, ty.Ranked
  symbols : ∀ id ∈ e.ownSymbols, id.index < size

theorem Valid.mono {size later : Nat} {e : Expr} (he : e.Valid size) (hle : size ≤ later) :
    e.Valid later :=
  ⟨he.note, he.own, he.form, fun id hid => Nat.lt_of_lt_of_le (he.symbols id hid) hle⟩

end Expr

namespace Inference

variable {size later : Nat} {table : SymbolTable} {span : Span}

/-- The types that the setting supplies are ranked. -/
structure Setting.Ranked (setting : Setting) : Prop where
  index : setting.options.indexType.Ranked
  int : setting.options.intBuiltin.Ranked
  float : setting.options.floatBuiltin.Ranked
  native : ∀ {name entry}, setting.names.lookup name = .native entry → entry.signature.Ranked
  dtype : ∀ {owner attr ty}, setting.names.attribute? owner attr = some (.dtype ty) → ty.Ranked

/-- All these expressions are valid. -/
def AllValid (size : Nat) (nodes : List Expr) : Prop := ∀ node ∈ nodes, node.Valid size

section AllValid

@[simp] theorem allValid_nil : AllValid size [] := List.forall_mem_nil _

@[simp] theorem allValid_cons {node : Expr} {nodes : List Expr} :
    AllValid size (node :: nodes) ↔ node.Valid size ∧ AllValid size nodes :=
  List.forall_mem_cons

@[simp] theorem allValid_append {first second : List Expr} :
    AllValid size (first ++ second) ↔ AllValid size first ∧ AllValid size second :=
  List.forall_mem_append

theorem allValid_nodesAll {es : List Expr} :
    AllValid size (Expr.nodesAll es) ↔ ∀ e ∈ es, AllValid size e.nodes := by
  induction es with
  | nil => simp [Expr.nodesAll]
  | cons e es ih => simp only [Expr.nodesAll, allValid_append, ih, List.forall_mem_cons]

theorem allValid_one {e : Expr} : AllValid size (Expr.nodesAll [e]) ↔ AllValid size e.nodes := by
  rw [allValid_nodesAll, List.forall_mem_singleton]

theorem allValid_two {first second : Expr} : AllValid size (Expr.nodesAll [first, second]) ↔
    AllValid size first.nodes ∧ AllValid size second.nodes := by
  rw [allValid_nodesAll, List.forall_mem_cons, List.forall_mem_singleton]

theorem AllValid.self {e : Expr} (he : AllValid size e.nodes) : e.Valid size :=
  he e e.mem_nodes_self

theorem AllValid.mono {nodes : List Expr} (hnodes : AllValid size nodes) (hle : size ≤ later) :
    AllValid later nodes :=
  fun node hnode => (hnodes node hnode).mono hle

theorem AllValid.symbols {es : List Expr} (hes : AllValid size (Expr.nodesAll es)) :
    ∀ id ∈ Expr.symbolsAll es, id.index < size := by
  intro id hid
  obtain ⟨node, hnode, hid⟩ := List.mem_flatMap.mp hid
  exact (hes node hnode).symbols id hid

end AllValid

/-! ## Notes and conversions -/

theorem valid_typed {e : Expr} {ty : Ty} (hnote : e.note = .typed span ty)
    (hform : e.formTypes = []) (hsymbols : e.ownSymbols = []) (hty : ty.Ranked) :
    e.Valid size := by
  refine ⟨?_, ?_, ?_, ?_⟩
  · rw [Expr.ty, hnote]
    exact nofun
  · rw [Expr.binding, hnote]
    rintro _ ⟨⟩
    exact Variable.valid_typed hty
  · rw [hform]
    exact List.forall_mem_nil _
  · rw [hsymbols]
    exact List.forall_mem_nil _

theorem valid_annotated {e : Expr} {ty : Ty} (hnote : e.note = .annotated span ty)
    (hsymbols : e.ownSymbols = []) (hform : ∀ part ∈ e.formTypes, part.Ranked)
    (hty : ty.Ranked) : e.Valid size := by
  refine ⟨?_, ?_, hform, ?_⟩
  · rw [Expr.ty, hnote]
    rintro _ ⟨⟩
    exact hty
  · rw [Expr.binding, hnote]
    rintro _ ⟨⟩
    exact Variable.valid_typed hty
  · rw [hsymbols]
    exact List.forall_mem_nil _

/-- A place of the tree that is bound to a symbol. -/
theorem valid_symbol {e : Expr} {id : SymbolId}
    (hnote : e.note = { span, binding := some (.symbol id) }) (hform : e.formTypes = [])
    (hsymbols : ∀ other ∈ e.ownSymbols, other = id) (hid : id.index < size) : e.Valid size := by
  refine ⟨?_, ?_, ?_, ?_⟩
  · rw [Expr.ty, hnote]
    exact nofun
  · rw [Expr.binding, hnote]
    exact nofun
  · rw [hform]
    exact List.forall_mem_nil _
  · intro other hother
    rw [hsymbols other hother]
    exact hid

/-- A place of the tree with a binding of its own. -/
theorem valid_value {e : Expr} {var : Variable}
    (hnote : e.note = { span, binding := some (.value var) })
    (hform : e.formTypes = []) (hsymbols : e.ownSymbols = []) (hvar : var.Valid) :
    e.Valid size := by
  refine ⟨?_, ?_, ?_, ?_⟩
  · rw [Expr.ty, hnote]
    exact nofun
  · rw [Expr.binding, hnote]
    rintro _ ⟨⟩
    exact hvar
  · rw [hform]
    exact List.forall_mem_nil _
  · rw [hsymbols]
    exact List.forall_mem_nil _

theorem Expr.Valid.boundVar? {e : Expr} {var : Variable} (he : e.Valid size) (htable : table.Valid)
    (hvar : e.boundVar? table = some var) : var.Valid := by
  unfold Expr.boundVar? at hvar
  split at hvar
  · exact htable.get? hvar
  next hbinding =>
    cases hvar
    exact he.own _ hbinding
  · cases hvar

theorem ranked_typeIn? {e : Expr} {ty : Ty} (htable : table.Valid) (he : e.Valid size)
    (hty : e.typeIn? table = some ty) : ty.Ranked := by
  unfold Expr.typeIn? at hty
  split at hty
  next hvar => exact (Expr.Valid.boundVar? he htable hvar).ranked ty hty
  · exact he.note ty hty

theorem ranked_typeOf {e : Expr} {ty : Ty} (htable : table.Valid) (he : AllValid size e.nodes)
    (hty : typeOf table e = .ok ty) : ty.Ranked :=
  ranked_typeIn? htable he.self (typeOf_eq_ok.mp hty)

/-- What is bound to `None` is a boxed value. -/
theorem typeIn?_of_isNothing {e : Expr} (htable : table.Valid) (he : e.Valid size)
    (hnothing : isNothing table e) : e.typeIn? table = some .object := by
  have hconstant : e.constantIn? table = some .nothing := of_decide_eq_true hnothing
  obtain ⟨var, hvar, hvalue⟩ := Option.bind_eq_some_iff.mp hconstant
  unfold Expr.typeIn?
  rw [hvar]
  split at hvalue
  · exact (Expr.Valid.boundVar? he htable hvar).nothing hvalue
  · cases hvalue

theorem ranked_join {a b ty : Ty} (ha : a.Ranked) (hb : b.Ranked)
    (hjoin : join a b span = .ok ty) : ty.Ranked := by
  unfold join Ty.promote at hjoin
  cases hpromote : a.promote? b with
  | none =>
      rw [hpromote] at hjoin
      cases hjoin
  | some found =>
      rw [hpromote] at hjoin
      cases hjoin
      exact ha.promote? hb hpromote

theorem ranked_object : Ty.object.Ranked := Ty.ranked_of_layouts rfl

theorem ranked_bool : Ty.bool.Ranked := Ty.ranked_of_layouts rfl

theorem valid_convert {e : Expr} {ty : Ty} (he : AllValid size e.nodes) (hty : ty.Ranked) :
    AllValid size (e.convert table ty).nodes := by
  unfold Expr.convert
  split
  · exact he
  · simp only [Expr.nodes, allValid_cons]
    exact ⟨valid_annotated rfl rfl (List.forall_mem_singleton.mpr hty) hty, he⟩

theorem valid_convertAll {es : List Expr} {ty : Ty} (hes : AllValid size (Expr.nodesAll es))
    (hty : ty.Ranked) : AllValid size (Expr.nodesAll (es.map (Expr.convert table ty))) := by
  rw [allValid_nodesAll] at hes ⊢
  exact List.forall_mem_map.mpr fun e he => valid_convert (hes e he) hty

/-! ## Operators and displays -/

section Operators

variable {left right operand result : Expr}

theorem valid_constantOf {value : Constant} {ty : Ty} (hty : ty.Ranked)
    (hnothing : value = .nothing → ty = .object) :
    AllValid size (constantOf value ty span).nodes := by
  simp only [constantOf, Expr.nodes, allValid_cons, allValid_nil, and_true]
  exact valid_value rfl rfl rfl (Variable.valid_constant hty hnothing)

theorem valid_literal (value : Constant) (span : Span) :
    AllValid size (literal value span).nodes := by
  refine valid_constantOf (Ty.ranked_ofConstant value) ?_
  rintro rfl
  rfl

theorem valid_typeBinOp {op : BinOp} (htable : table.Valid) (hleft : AllValid size left.nodes)
    (hright : AllValid size right.nodes)
    (hrule : typeBinOp span left op right table = .ok result) : AllValid size result.nodes := by
  simp only [typeBinOp, bind_eq_ok, pure_eq_ok] at hrule
  obtain ⟨leftTy, hleftTy, rightTy, hrightTy, ty, hjoin, rfl⟩ := hrule
  have hty : ty.Ranked :=
    ranked_join (ranked_typeOf htable hleft hleftTy) (ranked_typeOf htable hright hrightTy) hjoin
  simp only [Expr.nodes, allValid_cons, allValid_append]
  exact ⟨valid_typed rfl rfl rfl hty, valid_convert hleft hty, valid_convert hright hty⟩

theorem valid_typeBoolOp {op : BoolOp} {values : List Expr}
    (hvalues : AllValid size (Expr.nodesAll values)) :
    AllValid size (typeBoolOp span op values table).nodes := by
  simp only [typeBoolOp, Expr.nodes, allValid_cons]
  exact ⟨valid_typed rfl rfl rfl ranked_bool, valid_convertAll hvalues ranked_bool⟩

theorem valid_typeUnaryOp {op : UnaryOp} (htable : table.Valid)
    (hoperand : AllValid size operand.nodes)
    (hrule : typeUnaryOp span op operand table = .ok result) : AllValid size result.nodes := by
  cases unaryOutcome_of_ok hrule with
  | negation =>
      simp only [Expr.nodes, allValid_cons]
      exact ⟨valid_typed rfl rfl rfl ranked_bool, valid_convert hoperand ranked_bool⟩
  | other _ hty =>
      simp only [Expr.nodes, allValid_cons]
      exact ⟨valid_typed rfl rfl rfl (ranked_typeIn? htable hoperand.self hty), hoperand⟩

theorem valid_typeCompare {op : CmpOp} (htable : table.Valid) (hleft : AllValid size left.nodes)
    (hright : AllValid size right.nodes)
    (hrule : typeCompare span left op right table = .ok result) : AllValid size result.nodes := by
  cases compareOutcome_of_ok hrule with
  | same =>
      simp only [Expr.nodes, Expr.nodesAll, List.append_nil, allValid_cons, allValid_append]
      exact ⟨valid_typed rfl rfl rfl ranked_bool, hleft, hright⟩
  | @joined _ _ ty hleftTy hrightTy hjoin =>
      have hty : ty.Ranked :=
        ranked_join (ranked_typeIn? htable hleft.self hleftTy)
          (ranked_typeIn? htable hright.self hrightTy) hjoin
      simp only [Expr.nodes, Expr.nodesAll, List.append_nil, allValid_cons, allValid_append]
      exact ⟨valid_typed rfl rfl rfl ranked_bool, valid_convert hleft hty,
        valid_convert hright hty⟩

theorem valid_tupleVariable (table : SymbolTable) (elts : List Expr) (access : Access) :
    (tupleVariable table elts access).Valid := by
  unfold tupleVariable
  dsimp only
  split
  · exact Variable.valid_constant (Ty.ranked_of_layouts rfl) nofun
  · exact Variable.valid_typed (Ty.ranked_of_layouts rfl)

theorem valid_typeTuple {elts : List Expr} {access : Access}
    (helts : AllValid size (Expr.nodesAll elts)) :
    AllValid size (typeTuple span elts access table).nodes := by
  simp only [typeTuple, Expr.nodes, allValid_cons]
  exact ⟨valid_value rfl rfl rfl (valid_tupleVariable table elts access), helts⟩

theorem valid_typeList {elts : List Expr} {access : Access}
    (helts : AllValid size (Expr.nodesAll elts)) :
    AllValid size (typeList span elts access).nodes := by
  simp only [typeList, Expr.nodes, allValid_cons]
  exact ⟨valid_typed rfl rfl rfl (Ty.ranked_of_layouts rfl), helts⟩

theorem valid_typeDict {keys values : List Expr} (hkeys : AllValid size (Expr.nodesAll keys))
    (hvalues : AllValid size (Expr.nodesAll values)) :
    AllValid size (typeDict span keys values table).nodes := by
  simp only [typeDict, Expr.nodes, allValid_cons, allValid_append]
  exact ⟨valid_typed rfl rfl rfl ranked_object, valid_convertAll hkeys ranked_object,
    valid_convertAll hvalues ranked_object⟩

theorem valid_typeIndex {value : Expr} (htable : table.Valid) (hvalue : AllValid size value.nodes)
    (hrule : typeIndex span value table = .ok result) : AllValid size result.nodes := by
  obtain ⟨ty, hty, rfl⟩ := exists_typeIndex hrule
  have hranked : ty.Ranked := by
    rcases hty with ⟨-, rfl⟩ | hty
    · exact Ty.ranked_of_layouts rfl
    · exact ranked_typeIn? htable hvalue.self hty
  simp only [Expr.nodes, allValid_cons]
  exact ⟨valid_typed rfl rfl rfl hranked, hvalue⟩

end Operators

/-! ## Attributes -/

section Attributes

variable {value result : Expr} {attr : String} {access : Access}

theorem ranked_hostFunction (function : Host.Function) (count : Nat) :
    (function.signature count).Ranked := by
  cases function with
  | tuplePack =>
      refine ⟨List.forall_mem_cons.mpr ⟨Ty.ranked_of_layouts rfl, fun arg harg => ?_⟩,
        ranked_object⟩
      rw [List.eq_of_mem_replicate harg]
      exact ranked_object
  | _ =>
      refine ⟨?_, Ty.ranked_of_layouts rfl⟩
      simp [Host.Function.signature, Ty.Ranked, Ty.layouts, Ty.cString, Ty.int8, Ty.int32]

theorem valid_hostFunction {function : Host.Function} {args : List Expr}
    (hargs : AllValid size (Expr.nodesAll args)) :
    AllValid size (function.call args span).nodes := by
  have hsignature := ranked_hostFunction function args.length
  simp only [Host.Function.call, Expr.nodes, allValid_cons]
  exact ⟨valid_annotated rfl rfl (List.forall_mem_cons.mpr ⟨hsignature.ret, hsignature.args⟩)
    hsignature.ret, hargs⟩

theorem ranked_metadataType {elem : Ty} (helem : elem.Ranked) (ndim : Nat) (field : ArrayAttr) :
    (metadataType elem ndim field).Ranked := by
  cases field with
  | data => exact helem
  | _ => exact Ty.ranked_of_layouts rfl

theorem ranked_knownAttribute {setting : Setting} {ty found : Ty} (hsetting : setting.Ranked)
    (hknown : KnownAttribute setting attr access ty found) : found.Ranked := by
  cases hknown with
  | dtype hmember => exact Ty.ranked_dtype.mpr (hsetting.dtype hmember)
  | object => exact ranked_object
  | part | newAxis | member => exact Ty.ranked_of_layouts rfl

theorem valid_typeAttribute {setting : Setting} (hsetting : setting.Ranked)
    (htable : table.Valid) (hvalue : AllValid size value.nodes)
    (hrule : typeAttribute setting span value attr access table = .ok result) :
    AllValid size result.nodes := by
  cases attributeOutcome_of_ok hrule with
  | known _ hknown =>
      simp only [Expr.nodes, allValid_cons]
      exact ⟨valid_typed rfl rfl rfl (ranked_knownAttribute hsetting hknown), hvalue⟩
  | metadata hty =>
      have hranked := ranked_typeIn? htable hvalue.self hty
      simp only [Expr.nodes, allValid_cons]
      exact ⟨valid_typed rfl rfl rfl (ranked_metadataType (hranked.base rfl) _ _), hvalue⟩
  | dynamic =>
      exact valid_hostFunction
        (allValid_two.mpr ⟨valid_convert hvalue ranked_object, valid_literal _ _⟩)

end Attributes

/-! ## Subscripts -/

section Subscripts

variable {value selector result : Expr} {access : Access}

theorem valid_selectors {selectors : List Expr} (hselector : AllValid size selector.nodes)
    (hselectors : selectors? selector = some selectors) :
    AllValid size (Expr.nodesAll selectors) :=
  fun node hnode => hselector node (mem_nodes_of_selectors? hselectors hnode)

theorem valid_axes {dims : List Expr} (hselector : AllValid size selector.nodes)
    (haxes : Axes selector dims) : AllValid size (Expr.nodesAll dims) := by
  intro node hnode
  rcases haxes.mem_nodes hnode with hmem | ⟨span, rfl⟩
  · exact hselector node hmem
  · exact valid_typed rfl rfl rfl (Ty.ranked_of_layouts rfl)

/-- What is left of an array has at least one dimension, or is an element. -/
theorem ranked_selectedType {elem : Ty} (helem : elem.Ranked) (rank : Nat) :
    (selectedType elem rank).Ranked := by
  unfold selectedType
  split
  · exact helem
  next hrank => exact Ty.ranked_array.mpr ⟨Nat.one_le_iff_ne_zero.mpr hrank, helem⟩

theorem valid_subscript {ty : Ty} (hty : ty.Ranked) (hvalue : AllValid size value.nodes)
    (hselector : AllValid size selector.nodes) :
    AllValid size (Expr.subscript (.typed span ty) value selector access).nodes := by
  simp only [Expr.nodes, allValid_cons, allValid_append]
  exact ⟨valid_typed rfl rfl rfl hty, hvalue, hselector⟩

theorem valid_typeSubscript (htable : table.Valid) (hvalue : AllValid size value.nodes)
    (hselector : AllValid size selector.nodes)
    (hrule : typeSubscript span value selector access table = .ok result) :
    AllValid size result.nodes := by
  have hhost {selector : Expr} (hselector : AllValid size selector.nodes) :
      AllValid size (hostSubscript span value selector access table).nodes :=
    valid_subscript ranked_object (valid_convert hvalue ranked_object) hselector
  have hcombine {dims : List Expr} {place : Span} (haxes : Axes selector dims) :
      AllValid size (Expr.extSlice (.typed place .object) dims).nodes := by
    simp only [Expr.nodes, allValid_cons]
    exact ⟨valid_typed rfl rfl rfl ranked_object, valid_axes hselector haxes⟩
  have hranked {ty : Ty} (hty : value.typeIn? table = some ty) : ty.Ranked :=
    ranked_typeIn? htable hvalue.self hty
  cases subscriptOutcome_of_ok hrule with
  | host => exact hhost hselector
  | hostAxes _ haxes => exact hhost (hcombine haxes)
  | selection hty haxes =>
      exact valid_subscript (ranked_selectedType ((hranked hty).base rfl) _) hvalue
        (hcombine haxes)
  | pointed hty hindex | counted hty hindex =>
      subst hindex
      exact valid_subscript ((hranked hty).base rfl) hvalue (allValid_cons.mp hselector).2
  | object => exact valid_subscript ranked_object hvalue hselector

end Subscripts

/-! ## Calls -/

section Calls

variable {func result : Expr} {args : List Expr} {keywords : List (String × Expr)}
  {setting : Setting}

theorem valid_convertEach {params : List Ty} (hparams : ∀ param ∈ params, param.Ranked)
    (hargs : AllValid size (Expr.nodesAll args)) :
    AllValid size (Expr.nodesAll (List.zipWith (Expr.convert table) params args)) := by
  refine allValid_nodesAll.mpr fun converted hconverted => ?_
  obtain ⟨param, hparam, arg, harg, rfl⟩ := exists_of_mem_convertEach hconverted
  exact valid_convert (allValid_nodesAll.mp hargs arg harg) (hparams param hparam)

theorem valid_directCall {entry : EntryPoint} (hentry : entry.signature.Ranked)
    (hargs : AllValid size (Expr.nodesAll args))
    (hrule : directCall span entry args table = .ok result) : AllValid size result.nodes := by
  obtain ⟨-, rfl⟩ := exists_directCall hrule
  simp only [Expr.nodes, allValid_cons]
  refine ⟨⟨fun ty hty => ?_, fun var hvar => ?_,
    List.forall_mem_cons.mpr ⟨hentry.ret, hentry.args⟩, List.forall_mem_nil _⟩,
    valid_convertEach hentry.args hargs⟩
  · cases hty
  · cases hvar
    exact Variable.valid_typed hentry.ret

theorem valid_hostCall {ty : Ty} (hty : ty.Ranked)
    (hparts : AllValid size (callNodes func args keywords)) :
    AllValid size (hostCall span func args keywords ty table).nodes := by
  simp only [callNodes, allValid_append] at hparts
  obtain ⟨⟨hfunc, hargs⟩, hkeywords⟩ := hparts
  obtain ⟨boxed, hcall, hboxed⟩ := exists_hostCall span func args keywords ty table
  rw [hcall]
  simp only [Expr.nodes, Expr.nodesKeywords_eq, hboxed, allValid_cons, allValid_append]
  exact ⟨valid_typed rfl rfl rfl hty,
    ⟨valid_convert hfunc ranked_object, valid_convertAll hargs ranked_object⟩,
    valid_convertAll hkeywords ranked_object⟩

theorem valid_countedRange {start stop step : Expr} (hsetting : setting.Ranked)
    (hstart : AllValid size start.nodes) (hstop : AllValid size stop.nodes)
    (hstep : AllValid size step.nodes) :
    AllValid size (countedRange setting span start stop step table).nodes := by
  simp only [countedRange, Expr.nodes, allValid_cons, allValid_append]
  exact ⟨valid_typed rfl rfl rfl (Ty.ranked_of_layouts rfl),
    ⟨valid_convert hstart hsetting.index, valid_convert hstop hsetting.index⟩,
    valid_convert hstep hsetting.index⟩

theorem valid_indexConstant {value : Int} (hsetting : setting.Ranked) :
    AllValid size (indexConstant setting value span).nodes :=
  valid_constantOf hsetting.index nofun

theorem valid_typeBuiltinCall {name : String} (hsetting : setting.Ranked)
    (hargs : AllValid size (Expr.nodesAll args))
    (hrule : typeBuiltinCall setting span name args keywords table = .ok result) :
    AllValid size result.nodes := by
  have hargs := allValid_nodesAll.mp hargs
  have hconstant (value : Int) : AllValid size (indexConstant setting value span).nodes :=
    valid_indexConstant hsetting
  cases builtinOutcome_of_ok hrule with
  | upTo => exact valid_countedRange hsetting (hconstant 0) (hargs _ (by simp)) (hconstant 1)
  | fromTo =>
      exact valid_countedRange hsetting (hargs _ (by simp)) (hargs _ (by simp)) (hconstant 1)
  | stepping =>
      exact valid_countedRange hsetting (hargs _ (by simp)) (hargs _ (by simp))
        (hargs _ (by simp))
  | length =>
      refine valid_subscript (Ty.ranked_of_layouts rfl) ?_ (hconstant 0)
      simp only [Expr.nodes, allValid_cons]
      exact ⟨valid_typed rfl rfl rfl (Ty.ranked_of_layouts rfl), hargs _ (by simp)⟩
  | int => exact valid_convert (hargs _ (by simp)) hsetting.int
  | float => exact valid_convert (hargs _ (by simp)) hsetting.float

/-! ### The types of array functions -/

/-- The element type that an argument names. -/
theorem ranked_dtypeArgument {arg : Option Expr} {elem : Ty} (htable : table.Valid)
    (harg : ∀ e, arg = some e → AllValid size e.nodes)
    (hdtype : dtypeArgument table arg = some (some elem)) : elem.Ranked := by
  obtain ⟨e, rfl, he⟩ := Option.map_eq_some_iff.mp hdtype
  split at he <;> cases he
  next hty => exact (ranked_typeIn? htable (harg e rfl).self hty).base rfl

/-- An array that is made like another has as many dimensions. -/
theorem ranked_likeType {array dtype : Option Expr} (htable : table.Valid)
    (harray : ∀ e, array = some e → AllValid size e.nodes)
    (hdtype : ∀ e, dtype = some e → AllValid size e.nodes) :
    (Vocabulary.likeType table array dtype).Ranked := by
  unfold Vocabulary.likeType
  split
  next hbound =>
    obtain ⟨e, he, hty⟩ := Option.bind_eq_some_iff.mp hbound
    have hty := ranked_typeIn? htable (harray e he).self hty
    split
    · exact hty
    next helem =>
      exact Ty.ranked_array.mpr
        ⟨(Ty.ranked_array.mp hty).1, ranked_dtypeArgument htable hdtype helem⟩
    · exact ranked_object
  · exact ranked_object

theorem ranked_arrayFunctionType {attr : String} (htable : table.Valid)
    (hargs : AllValid size (Expr.nodesAll args))
    (hkeywords : AllValid size (Expr.nodesAll (keywords.map Prod.snd))) :
    (arrayFunctionType attr args keywords table).Ranked := by
  have hargs := allValid_nodesAll.mp hargs
  have hkeyword {name : String} {e : Expr} (hfound : keywords.lookup name = some e) :
      AllValid size e.nodes := by
    obtain ⟨before, after, rfl, -⟩ := List.lookup_eq_some_iff.mp hfound
    exact allValid_nodesAll.mp hkeywords e (by simp)
  -- The element type is named by a keyword or else by one of the arguments.
  have hchoice {arg : Option Expr} (harg : ∀ e, arg = some e → e ∈ args) (e : Expr)
      (hfound : (keywords.lookup "dtype").or arg = some e) : AllValid size e.nodes := by
    rcases Option.or_eq_some_iff.mp hfound with hnamed | ⟨-, hplaced⟩
    · exact hkeyword hnamed
    · exact hargs e (harg e hplaced)
  unfold arrayFunctionType
  split
  iterate 3
    · cases hnamed : keywords.lookup "a" with
      | some array =>
          refine ranked_likeType htable (fun e he => hkeyword (hnamed.trans he)) ?_
          exact hchoice fun e he => List.mem_of_head? he
      | none =>
          refine ranked_likeType htable (fun e he => hargs e (List.mem_of_head? he)) ?_
          exact hchoice fun e he => List.mem_of_mem_tail (List.mem_of_head? he)
  · split
    · exact Ty.ranked_array.mpr ⟨Nat.le_refl 1, Ty.ranked_of_layouts rfl⟩
    next hdtype =>
      exact Ty.ranked_array.mpr ⟨Nat.le_refl 1,
        ranked_dtypeArgument htable (hchoice fun e => List.mem_of_getElem?) hdtype⟩
    · exact ranked_object
  · exact ranked_object

end Calls

end Inference

end KernelFront
