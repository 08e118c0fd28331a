import KernelFront.Proofs.Inference.Calls
import KernelFront.Proofs.Inference.Determined

/-! # Rules refuse for a reason

A rule that is applied to determined parts ends with a determined expression, or with an error that
tells what is wrong with the source: never with an internal error.
-/

namespace KernelFront.Inference

section Outcomes

variable {α β : Type}

/-- The outcome is a good result or an error that is not internal. -/
def Regular (good : α → Prop) : Except TypeError α → Prop
  | .ok result => good result
  | .error error => error.kind ≠ .internal

variable {good : α → Prop}

theorem regular_ok {result : α} (hgood : good result) : Regular good (.ok result) := hgood

theorem regular_pure {result : α} (hgood : good result) : Regular good (pure result) := hgood

theorem regular_error {error : TypeError} (hkind : error.kind ≠ .internal) :
    Regular good (.error error) := hkind

theorem regular_throw {error : TypeError} (hkind : error.kind ≠ .internal) :
    Regular good (throw error) := hkind

theorem Regular.bind {outcome : Except TypeError α} {f : α → Except TypeError β} {last : β → Prop}
    (houtcome : Regular good outcome) (hf : ∀ value, good value → Regular last (f value)) :
    Regular last (outcome >>= f) := by
  cases outcome with
  | error => exact houtcome
  | ok value => exact hf value houtcome

theorem Regular.mono {outcome : Except TypeError α} {other : α → Prop}
    (houtcome : Regular good outcome) (hgood : ∀ value, good value → other value) :
    Regular other outcome := by
  cases outcome with
  | error => exact houtcome
  | ok value => exact hgood value houtcome

theorem Regular.discard {outcome : Except TypeError α} (houtcome : Regular good outcome) :
    Regular (fun _ => True) (discard outcome) := by
  cases outcome with
  | error => exact houtcome
  | ok => trivial

theorem regular_mapM {f : α → Except TypeError β} {good : α → β → Prop} {values : List α}
    (heach : ∀ value ∈ values, Regular (good value) (f value)) :
    Regular (fun _ => True) (values.mapM f) := by
  induction values with
  | nil => trivial
  | cons value values ih =>
      obtain ⟨hfirst, hrest⟩ := List.forall_mem_cons.mp heach
      rw [List.mapM_cons]
      exact hfirst.bind fun _ _ => (ih hrest).bind fun _ _ => trivial

end Outcomes

/-- The outcome is an expression that is determined throughout, or an error that is not internal. -/
abbrev Builds (table : SymbolTable) (outcome : Except TypeError Expr) : Prop :=
  Regular (fun result => AllDetermined table result.nodes) outcome

variable {exempt : Span → Prop} {table : SymbolTable} {span : Span}

theorem regular_typeOf {e : Expr} (hroot : Determined table e) :
    Regular (fun ty => e.typeIn? table = some ty) (typeOf table e) := by
  obtain ⟨ty, hty⟩ := Option.isSome_iff_exists.mp hroot.isSome_typeIn?
  unfold typeOf
  rw [hty]
  exact rfl

theorem regular_join (left right : Ty) (span : Span) :
    Regular (fun _ => True) (join left right span) := by
  unfold join
  split
  · trivial
  · exact regular_error ErrorKind.noConfusion

theorem determined_constantOf (value : Constant) (ty : Ty) (span : Span) :
    AllDetermined table (constantOf value ty span).nodes :=
  known_node ⟨rfl, by rintro _ ⟨⟩⟩ known_nil

/-! ## Operators and displays -/

theorem usable_typed {e : Expr} {ty : Ty} (hnote : e.note = .typed span ty)
    (hawaited : e.awaited? = none) (hparts : Known exempt table (Expr.nodesAll e.children)) :
    Usable exempt table e :=
  have hroot := determined_typed hnote hawaited
  ⟨hroot, known_node hroot hparts⟩

theorem regular_typeBinOp {left right : Expr} (op : BinOp) (hleft : Usable exempt table left)
    (hright : Usable exempt table right) :
    Regular (Usable exempt table) (typeBinOp span left op right table) := by
  refine (regular_typeOf hleft.root).bind fun leftTy _ => ?_
  refine (regular_typeOf hright.root).bind fun rightTy _ => ?_
  refine (regular_join leftTy rightTy span).bind fun ty _ => regular_pure ?_
  refine usable_typed rfl rfl ?_
  simp only [Expr.children, Expr.nodesAll, List.append_nil, known_append]
  exact ⟨known_convert hleft.nodes ty, known_convert hright.nodes ty⟩

theorem determined_typeBoolOp {values : List Expr} (op : BoolOp)
    (hvalues : AllDetermined table (Expr.nodesAll values)) :
    AllDetermined table (typeBoolOp span op values table).nodes :=
  known_node (determined_typed rfl rfl) (known_convertAll hvalues .bool)

theorem builds_typeUnaryOp {operand : Expr} (op : UnaryOp)
    (hoperand : AllDetermined table operand.nodes) :
    Builds table (typeUnaryOp span op operand table) := by
  have hkept {op : UnaryOp} : Builds table (do
      let ty ← typeOf table operand
      pure (.unaryOp (.typed span ty) op operand)) := by
    refine (regular_typeOf hoperand.root).bind fun ty _ => regular_pure ?_
    refine known_node (determined_typed rfl rfl) ?_
    simpa only [Expr.children, Expr.nodesAll, List.append_nil] using hoperand
  cases op with
  | not =>
      refine regular_ok (known_node (determined_typed rfl rfl) ?_)
      simpa only [Expr.children, Expr.nodesAll, List.append_nil] using known_convert hoperand .bool
  | _ => exact hkept

theorem builds_typeCompare {left right : Expr} (op : CmpOp)
    (hleft : AllDetermined table left.nodes) (hright : AllDetermined table right.nodes) :
    Builds table (typeCompare span left op right table) := by
  have hcompare {left right : Expr} (hleft : AllDetermined table left.nodes)
      (hright : AllDetermined table right.nodes) :
      AllDetermined table (Expr.compare (.typed span .bool) left [op] [right]).nodes := by
    refine known_node (determined_typed rfl rfl) ?_
    simp only [Expr.children, Expr.nodesAll, List.append_nil, known_append]
    exact ⟨hleft, hright⟩
  refine (regular_typeOf hleft.root).bind fun leftTy _ => ?_
  refine (regular_typeOf hright.root).bind fun rightTy _ => ?_
  dsimp only
  split
  · exact regular_pure (hcompare hleft hright)
  · refine (regular_join leftTy rightTy span).bind fun ty _ => regular_pure ?_
    exact hcompare (known_convert hleft ty) (known_convert hright ty)

theorem tupleVariable_isSome (table : SymbolTable) (elts : List Expr) (access : Access) :
    (tupleVariable table elts access).ty.isSome := by
  unfold tupleVariable
  dsimp only
  split
  · rfl
  · rfl

theorem usable_typeTuple {elts : List Expr} (access : Access)
    (helts : Known exempt table (Expr.nodesAll elts)) :
    Usable exempt table (typeTuple span elts access table) := by
  have hroot : Determined table (typeTuple span elts access table) :=
    ⟨tupleVariable_isSome table elts access, by rintro _ ⟨⟩⟩
  exact ⟨hroot, known_node hroot helts⟩

theorem usable_typeList {elts : List Expr} (access : Access)
    (helts : Known exempt table (Expr.nodesAll elts)) :
    Usable exempt table (typeList span elts access) :=
  usable_typed rfl rfl helts

theorem determined_typeDict {keys values : List Expr}
    (hkeys : AllDetermined table (Expr.nodesAll keys))
    (hvalues : AllDetermined table (Expr.nodesAll values)) :
    AllDetermined table (typeDict span keys values table).nodes := by
  refine known_node (determined_typed rfl rfl) ?_
  simp only [typeDict, Expr.children, Expr.nodesAll_append, known_append]
  exact ⟨known_convertAll hkeys .object, known_convertAll hvalues .object⟩

theorem builds_typeIndex {value : Expr} (hvalue : AllDetermined table value.nodes) :
    Builds table (typeIndex span value table) := by
  have hindex (ty : Ty) : AllDetermined table (Expr.index (.typed span ty) value).nodes := by
    refine known_node (determined_typed rfl rfl) ?_
    simpa only [Expr.children, Expr.nodesAll, List.append_nil] using hvalue
  unfold typeIndex
  split
  · exact regular_pure (hindex .newAxis)
  · exact (regular_typeOf hvalue.root).bind fun ty _ => regular_pure (hindex ty)

/-! ## Attributes -/

theorem builds_dynamicAttribute {value : Expr} (attr : String) (access : Access)
    (hvalue : AllDetermined table value.nodes) :
    Builds table (dynamicAttribute span value attr access table) := by
  cases access with
  | store =>
      exact (regular_typeOf hvalue.root).bind fun _ _ => regular_throw ErrorKind.noConfusion
  | load =>
      refine regular_ok (known_node ⟨rfl, by rintro _ ⟨⟩⟩ ?_)
      simp only [Host.Function.call, Expr.children, Expr.nodesAll, List.append_nil, known_append]
      exact ⟨known_convert hvalue .object, determined_constantOf _ _ span⟩

theorem builds_typeAttribute {setting : Setting} {value : Expr} (attr : String) (access : Access)
    (hvalue : AllDetermined table value.nodes) :
    Builds table (typeAttribute setting span value attr access table) := by
  have hparts : AllDetermined table (Expr.nodesAll [value]) := by
    simpa only [Expr.nodesAll, List.append_nil] using hvalue
  have hknown (ty : Ty) : Builds table (pure (.attribute (.typed span ty) value attr access)) :=
    regular_pure (known_node (determined_typed rfl rfl) hparts)
  have hdynamic : Builds table (dynamicAttribute span value attr access table) :=
    builds_dynamicAttribute attr access hvalue
  refine (regular_typeOf hvalue.root).bind fun ty _ => ?_
  dsimp only
  split
  · split
    · exact regular_throw ErrorKind.noConfusion
    · split
      · exact regular_throw ErrorKind.noConfusion
      · exact hknown _
  · split
    · exact hknown _
    · exact hknown _
    · exact hknown _
    · exact hknown _
    · exact hdynamic
  · exact hknown _
  · split
    · exact hdynamic
    · split
      · exact regular_throw ErrorKind.noConfusion
      · exact regular_pure (known_node (determined_typed rfl rfl) hparts)
  · exact hdynamic

/-! ## Subscripts -/

theorem determined_selectors {selector : Expr} {selectors : List Expr}
    (hselector : AllDetermined table selector.nodes)
    (hselectors : selectors? selector = some selectors) :
    AllDetermined table (Expr.nodesAll selectors) :=
  fun node hnode => hselector node (mem_nodes_of_selectors? hselectors hnode)

theorem determined_axes {selector : Expr} {dims : List Expr}
    (hselector : AllDetermined table selector.nodes) (haxes : Axes selector dims) :
    AllDetermined table (Expr.nodesAll dims) := by
  intro node hnode
  rcases haxes.mem_nodes hnode with hmem | ⟨span, rfl⟩
  · exact hselector node hmem
  · exact .inl (determined_typed rfl rfl)

theorem regular_selectorKind {e : Expr} (hroot : Determined table e) :
    Regular (fun _ => True) (selectorKind table e) := by
  refine (regular_typeOf hroot).bind fun ty _ => ?_
  repeat' split
  all_goals trivial

theorem determined_subscript {value selector : Expr} {ty : Ty} (access : Access)
    (hvalue : AllDetermined table value.nodes) (hselector : AllDetermined table selector.nodes) :
    AllDetermined table (Expr.subscript (.typed span ty) value selector access).nodes := by
  refine known_node (determined_typed rfl rfl) ?_
  simp only [Expr.children, Expr.nodesAll, List.append_nil, known_append]
  exact ⟨hvalue, hselector⟩

theorem builds_arraySubscript {elem : Ty} {ndim : Nat} {value selector : Expr} (access : Access)
    (hvalue : AllDetermined table value.nodes) (hselector : AllDetermined table selector.nodes) :
    Builds table (arraySubscript span elem ndim value selector access table) := by
  have hhost {selector : Expr} (hselector : AllDetermined table selector.nodes) :
      AllDetermined table (hostSubscript span value selector access table).nodes :=
    determined_subscript access (known_convert hvalue .object) hselector
  have hcombine {dims : List Expr} {place : Span} (haxes : Axes selector dims) :
      AllDetermined table (Expr.extSlice (.typed place .object) dims).nodes :=
    known_node (determined_typed rfl rfl) (determined_axes hselector haxes)
  unfold arraySubscript
  split
  · exact regular_ok (hhost hselector)
  next selectors hselectors =>
    have heach := known_nodesAll.mp (determined_selectors hselector hselectors)
    have hkinds : Regular (fun _ => True) (selectors.mapM (selectorKind table)) :=
      regular_mapM fun e he => regular_selectorKind (AllDetermined.root (heach e he))
    refine hkinds.bind fun kinds _ => ?_
    dsimp only
    split
    · exact regular_pure (hhost (hcombine (axes_expandEllipses hselectors kinds _)))
    · split
      · exact regular_throw ErrorKind.noConfusion
      · refine regular_pure (determined_subscript access hvalue (hcombine ?_))
        exact ⟨selectors, kinds, _, _, _, hselectors, rfl⟩

theorem builds_elementSubscript {elem : Ty} {value selector : Expr} (access : Access)
    (hvalue : AllDetermined table value.nodes) (hselector : AllDetermined table selector.nodes) :
    Builds table (elementSubscript span elem value selector access table) := by
  refine (regular_typeOf hselector.root).bind fun indexTy _ => ?_
  split
  · rw [Expr.nodes_eq] at hselector
    refine regular_pure (determined_subscript access hvalue ?_)
    simpa only [Expr.children, Expr.nodesAll, List.append_nil] using (known_cons.mp hselector).2
  · exact (regular_typeOf hvalue.root).bind fun _ _ => regular_throw ErrorKind.noConfusion

theorem builds_typeSubscript {value selector : Expr} (access : Access)
    (hvalue : AllDetermined table value.nodes) (hselector : AllDetermined table selector.nodes) :
    Builds table (typeSubscript span value selector access table) := by
  refine (regular_typeOf hvalue.root).bind fun ty _ => ?_
  split
  · exact builds_arraySubscript access hvalue hselector
  · exact builds_elementSubscript access hvalue hselector
  · exact builds_elementSubscript access hvalue hselector
  · exact regular_pure (determined_subscript access hvalue hselector)
  · exact regular_throw ErrorKind.noConfusion

/-! ## Calls -/

theorem determined_convertEach {params : List Ty} {args : List Expr}
    (hargs : AllDetermined table (Expr.nodesAll args)) :
    AllDetermined table (Expr.nodesAll (List.zipWith (Expr.convert table) params args)) := by
  induction args generalizing params with
  | nil => simp [Expr.nodesAll]
  | cons arg args ih =>
      cases params with
      | nil => simp [Expr.nodesAll]
      | cons param params =>
          obtain ⟨harg, hargs⟩ := known_append.mp hargs
          exact known_append.mpr ⟨known_convert harg param, ih hargs⟩

theorem builds_directCall {entry : EntryPoint} {args : List Expr}
    (hargs : AllDetermined table (Expr.nodesAll args)) :
    Builds table (directCall span entry args table) := by
  unfold directCall
  dsimp only
  split
  · exact regular_error ErrorKind.noConfusion
  · exact regular_ok (known_node (determined_typed rfl rfl) (determined_convertEach hargs))

theorem determined_hostCall {func : Expr} {args : List Expr} {keywords : List (String × Expr)}
    (hfunc : AllDetermined table func.nodes) (hargs : AllDetermined table (Expr.nodesAll args))
    (hkeywords : AllDetermined table (Expr.nodesAll (keywords.map Prod.snd))) (ty : Ty) :
    AllDetermined table (hostCall span func args keywords ty table).nodes := by
  obtain ⟨boxed, hcall, hboxed⟩ := exists_hostCall span func args keywords ty table
  rw [hcall]
  refine known_node (determined_typed rfl rfl) ?_
  simp only [Expr.children, Expr.nodesAll, Expr.nodesAll_append, hboxed, known_append]
  exact ⟨known_convert hfunc .object, known_convertAll hargs .object,
    known_convertAll hkeywords .object⟩

variable {setting : Setting}

theorem determined_countedRange {start stop step : Expr}
    (hstart : AllDetermined table start.nodes) (hstop : AllDetermined table stop.nodes)
    (hstep : AllDetermined table step.nodes) :
    AllDetermined table (countedRange setting span start stop step table).nodes := by
  refine known_node (determined_typed rfl rfl) ?_
  simp only [countedRange, Expr.children, Expr.nodesAll, List.append_nil, known_append]
  exact ⟨known_convert hstart _, known_convert hstop _, known_convert hstep _⟩

theorem builds_arrayLength {array : Expr} (harray : AllDetermined table array.nodes) :
    Builds table (arrayLength setting span array table) := by
  refine (regular_typeOf harray.root).bind fun ty _ => ?_
  split
  · refine regular_pure (determined_subscript .load ?_ (determined_constantOf _ _ span))
    refine known_node (determined_typed rfl rfl) ?_
    simpa only [Expr.children, Expr.nodesAll, List.append_nil] using harray
  · exact regular_throw ErrorKind.noConfusion

theorem builds_typeBuiltinCall {args : List Expr} (name : String)
    (keywords : List (String × Expr)) (hargs : AllDetermined table (Expr.nodesAll args)) :
    Builds table (typeBuiltinCall setting span name args keywords table) := by
  have hargs := known_nodesAll.mp hargs
  have hconstant (value : Int) : AllDetermined table (indexConstant setting value span).nodes :=
    determined_constantOf _ _ span
  unfold typeBuiltinCall
  dsimp only
  split
  · exact regular_error ErrorKind.noConfusion
  · split
    -- `range` and `xrange` are one builtin with two names.
    iterate 2
      · split
        · exact regular_ok
            (determined_countedRange (hconstant 0) (hargs _ (by simp)) (hconstant 1))
        · exact regular_ok
            (determined_countedRange (hargs _ (by simp)) (hargs _ (by simp)) (hconstant 1))
        · exact regular_ok (determined_countedRange (hargs _ (by simp)) (hargs _ (by simp))
            (hargs _ (by simp)))
        · exact regular_error ErrorKind.noConfusion
    · split
      · exact builds_arrayLength (hargs _ (by simp))
      · exact regular_error ErrorKind.noConfusion
    iterate 2
      · split
        · exact regular_ok (known_convert (hargs _ (by simp)) _)
        · exact regular_error ErrorKind.noConfusion
    · exact regular_error ErrorKind.noConfusion

end KernelFront.Inference
