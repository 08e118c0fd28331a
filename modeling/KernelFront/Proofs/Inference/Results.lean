import KernelFront.Proofs.Doubles
import KernelFront.Proofs.Inference.Calls
import KernelFront.Proofs.Inference.Spelling

/-! # What the rules of inference build

An expression that inference is done with can be told by its note and its form: its type can be read
off a binding, no choice of form is left open, a tuple that is read has the type of a tuple, and the
doubles in it have every property that the doubles of the bindings and of the source have. Each rule
builds such an expression from such parts.
-/

namespace KernelFront

namespace Expr

/-- Whether an expression is a tuple that is read. -/
def isReadTuple : Expr → Bool
  | .tuple _ _ access => access = .load
  | _ => false

/-- The type of a binding of this expression alone. -/
def ownTy? (e : Expr) : Option Ty :=
  match e.binding with
  | some (.value var) => var.ty
  | _ => none

/-- There is a binding, and the type of the expression can only be that of the binding. -/
def IsBound (e : Expr) : Prop :=
  match e.binding with
  | some (.symbol _) => e.ty = none
  | some (.value _) => True
  | none => False

/-- No choice is left open: it is decided how calls are made, and operations on truth values and
comparisons have two operands. -/
def IsResolved : Expr → Prop
  | .call _ _ _ _ => False
  | .boolOp _ _ values => values.length = 2
  | .compare _ _ ops comparators => ops.length = 1 ∧ comparators.length = 1
  | _ => True

/-- An expression that inference is done with, its parts apart. -/
structure IsInferred (p : Binary64 → Prop) (e : Expr) : Prop where
  bound : e.IsBound
  resolved : e.IsResolved
  tuple : e.isReadTuple → ∃ size value, e.ownTy? = some (.tuple size value)
  noteDoubles : DoublesIn p e.note.scalars
  formDoubles : DoublesIn p e.formScalars

end Expr

/-- The doubles in all bindings of a table have the property. -/
def SymbolTable.HasDoubles (p : Binary64 → Prop) (table : SymbolTable) : Prop :=
  ∀ var ∈ table.vars, DoublesIn p var.scalars

theorem SymbolTable.HasDoubles.get? {p : Binary64 → Prop} {table : SymbolTable}
    (htable : table.HasDoubles p) {id : SymbolId} {var : Variable}
    (hvar : table.get? id = some var) :
    DoublesIn p var.scalars :=
  htable var (List.mem_of_getElem? hvar)

theorem Variable.doublesIn_ty {p : Binary64 → Prop} {var : Variable} {ty : Ty}
    (hvar : DoublesIn p var.scalars) (hty : var.ty = some ty) : DoublesIn p ty.scalars := by
  simp only [scalars, hty, Option.toList_some, List.flatMap_singleton, doublesIn_append] at hvar
  exact hvar.1

theorem Variable.doublesIn_value {p : Binary64 → Prop} {var : Variable} {value : Constant}
    (hvar : DoublesIn p var.scalars) (hvalue : var.constantValue = some value) :
    DoublesIn p value.scalars := by
  simp only [scalars, hvalue, Option.toList_some, List.flatMap_singleton, doublesIn_append] at hvar
  exact hvar.2

namespace Inference

variable {p : Binary64 → Prop} {table : SymbolTable} {span : Span}

/-- The doubles in the types that the setting supplies have the property. -/
structure Setting.HasDoubles (p : Binary64 → Prop) (setting : Setting) : Prop where
  index : DoublesIn p setting.options.indexType.scalars
  int : DoublesIn p setting.options.intBuiltin.scalars
  float : DoublesIn p setting.options.floatBuiltin.scalars
  native : ∀ {name entry}, setting.names.lookup name = .native entry →
    DoublesIn p entry.signature.scalars
  dtype : ∀ {owner attr ty}, setting.names.attribute? owner attr = some (.dtype ty) →
    DoublesIn p ty.scalars

/-- Inference is done with all these expressions. -/
def AllInferred (p : Binary64 → Prop) (nodes : List Expr) : Prop :=
  ∀ node ∈ nodes, node.IsInferred p

section AllInferred

@[simp] theorem allInferred_nil : AllInferred p [] := List.forall_mem_nil _

@[simp] theorem allInferred_cons {node : Expr} {nodes : List Expr} :
    AllInferred p (node :: nodes) ↔ node.IsInferred p ∧ AllInferred p nodes :=
  List.forall_mem_cons

@[simp] theorem allInferred_append {first second : List Expr} :
    AllInferred p (first ++ second) ↔ AllInferred p first ∧ AllInferred p second :=
  List.forall_mem_append

theorem allInferred_nodesAll {es : List Expr} :
    AllInferred p (Expr.nodesAll es) ↔ ∀ e ∈ es, AllInferred p e.nodes := by
  induction es with
  | nil => simp [Expr.nodesAll]
  | cons e es ih => simp only [Expr.nodesAll, allInferred_append, ih, List.forall_mem_cons]

theorem AllInferred.self {e : Expr} (he : AllInferred p e.nodes) : e.IsInferred p :=
  he e e.mem_nodes_self

end AllInferred

/-! ## Notes and conversions -/

/-- An expression with a binding of its own that is no tuple to read. -/
theorem inferred_value {e : Expr} {var : Variable} (hbinding : e.binding = some (.value var))
    (hresolved : e.IsResolved) (htuple : e.isReadTuple = false)
    (hnote : DoublesIn p e.note.scalars) (hform : DoublesIn p e.formScalars) : e.IsInferred p := by
  refine ⟨?_, hresolved, fun hread => ?_, hnote, hform⟩
  · unfold Expr.IsBound
    rw [hbinding]
    trivial
  · rw [htuple] at hread
    cases hread

theorem inferred_typed {e : Expr} {ty : Ty} (hnote : e.note = .typed span ty)
    (hresolved : e.IsResolved) (htuple : e.isReadTuple = false) (hty : DoublesIn p ty.scalars)
    (hform : DoublesIn p e.formScalars) : e.IsInferred p := by
  have hbinding : e.binding = some (.value (.typed ty)) := by
    rw [Expr.binding, hnote]
    rfl
  exact inferred_value hbinding hresolved htuple (hnote ▸ doublesIn_typed.mpr hty) hform

theorem inferred_annotated {e : Expr} {ty : Ty} (hnote : e.note = .annotated span ty)
    (hresolved : e.IsResolved) (htuple : e.isReadTuple = false) (hty : DoublesIn p ty.scalars)
    (hform : DoublesIn p e.formScalars) : e.IsInferred p := by
  have hbinding : e.binding = some (.value (.typed ty)) := by
    rw [Expr.binding, hnote]
    rfl
  exact inferred_value hbinding hresolved htuple (hnote ▸ doublesIn_annotated.mpr hty) hform

theorem doublesIn_typeIn? {e : Expr} {ty : Ty} (htable : table.HasDoubles p) (he : e.IsInferred p)
    (hty : e.typeIn? table = some ty) : DoublesIn p ty.scalars := by
  have hbound := he.bound
  unfold Expr.IsBound at hbound
  split at hbound
  · rename_i id hbinding
    rw [typeIn?_symbol table hbinding, hbound] at hty
    cases hvar : table.get? id with
    | none =>
        rw [hvar] at hty
        cases hty
    | some var =>
        rw [hvar] at hty
        exact Variable.doublesIn_ty (htable.get? hvar) hty
  · rename_i var hbinding
    have hnote := he.noteDoubles
    rw [Expr.binding] at hbinding
    simp only [Note.scalars, hbinding, Option.toList_some, List.flatMap_singleton,
      doublesIn_append] at hnote
    unfold Expr.typeIn? Expr.boundVar? Expr.binding at hty
    rw [hbinding] at hty
    exact Variable.doublesIn_ty hnote.1.2 hty
  · exact hbound.elim

theorem doublesIn_constantIn? {e : Expr} {value : Constant} (htable : table.HasDoubles p)
    (he : e.IsInferred p) (hvalue : e.constantIn? table = some value) :
    DoublesIn p value.scalars := by
  obtain ⟨var, hvar, hvalue⟩ := Option.bind_eq_some_iff.mp hvalue
  split at hvalue
  · refine Variable.doublesIn_value ?_ hvalue
    unfold Expr.boundVar? at hvar
    split at hvar
    · exact htable.get? hvar
    · rename_i hbinding
      cases hvar
      have hnote := he.noteDoubles
      rw [Expr.binding] at hbinding
      simp only [Note.scalars, hbinding, Option.toList_some, List.flatMap_singleton,
        doublesIn_append] at hnote
      exact hnote.1.2
    · cases hvar
  · cases hvalue

theorem doublesIn_typeOf {e : Expr} {ty : Ty} (htable : table.HasDoubles p)
    (he : AllInferred p e.nodes) (hty : typeOf table e = .ok ty) : DoublesIn p ty.scalars :=
  doublesIn_typeIn? htable he.self (typeOf_eq_ok.mp hty)

theorem doublesIn_join {a b ty : Ty} (ha : DoublesIn p a.scalars) (hb : DoublesIn p b.scalars)
    (hjoin : join a b span = .ok ty) : DoublesIn p ty.scalars := by
  unfold join Ty.promote at hjoin
  cases hpromote : a.promote? b with
  | none =>
      rw [hpromote] at hjoin
      cases hjoin
  | some found =>
      rw [hpromote] at hjoin
      cases hjoin
      exact Ty.doublesIn_promote? ha hb hpromote

theorem inferred_convert {e : Expr} {ty : Ty} (he : AllInferred p e.nodes)
    (hty : DoublesIn p ty.scalars) : AllInferred p (e.convert table ty).nodes := by
  unfold Expr.convert
  split
  · exact he
  · simp only [Expr.nodes, allInferred_cons]
    exact ⟨inferred_annotated rfl trivial rfl hty hty, he⟩

theorem inferred_convertAll {es : List Expr} {ty : Ty} (hes : AllInferred p (Expr.nodesAll es))
    (hty : DoublesIn p ty.scalars) :
    AllInferred p (Expr.nodesAll (es.map (Expr.convert table ty))) := by
  rw [allInferred_nodesAll] at hes ⊢
  exact List.forall_mem_map.mpr fun e he => inferred_convert (hes e he) hty

theorem doublesIn_object : DoublesIn p Ty.object.scalars := doublesIn_nil

theorem doublesIn_bool : DoublesIn p Ty.bool.scalars := doublesIn_nil

/-! ## Operators and displays -/

section Operators

variable {left right operand result : Expr}

theorem inferred_constantOf {value : Constant} {ty : Ty} (hvalue : DoublesIn p value.scalars)
    (hty : DoublesIn p ty.scalars) : AllInferred p (constantOf value ty span).nodes := by
  simp only [constantOf, Expr.nodes, allInferred_cons, allInferred_nil, and_true]
  refine inferred_value rfl trivial rfl (doublesIn_note_value ?_) hvalue
  simpa [Variable.constant, Variable.scalars] using ⟨hty, hvalue⟩

theorem inferred_literal {value : Constant} (hvalue : DoublesIn p value.scalars) :
    AllInferred p (literal value span).nodes :=
  inferred_constantOf hvalue (Ty.doublesIn_ofConstant hvalue)

theorem inferred_typeBinOp {op : BinOp} (htable : table.HasDoubles p)
    (hleft : AllInferred p left.nodes) (hright : AllInferred p right.nodes)
    (hrule : typeBinOp span left op right table = .ok result) : AllInferred p result.nodes := by
  simp only [typeBinOp, bind_eq_ok, pure_eq_ok] at hrule
  obtain ⟨leftTy, hleftTy, rightTy, hrightTy, ty, hjoin, rfl⟩ := hrule
  have hty : DoublesIn p ty.scalars :=
    doublesIn_join (doublesIn_typeOf htable hleft hleftTy) (doublesIn_typeOf htable hright hrightTy)
      hjoin
  simp only [Expr.nodes, allInferred_cons, allInferred_append]
  exact ⟨inferred_typed rfl trivial rfl hty doublesIn_nil, inferred_convert hleft hty,
    inferred_convert hright hty⟩

theorem inferred_typeBoolOp {op : BoolOp} {values : List Expr} (hlength : values.length = 2)
    (hvalues : AllInferred p (Expr.nodesAll values)) :
    AllInferred p (typeBoolOp span op values table).nodes := by
  simp only [typeBoolOp, Expr.nodes, allInferred_cons]
  refine ⟨inferred_typed rfl ?_ rfl doublesIn_bool doublesIn_nil,
    inferred_convertAll hvalues doublesIn_bool⟩
  simpa only [Expr.IsResolved, List.length_map] using hlength

theorem inferred_typeUnaryOp {op : UnaryOp} (htable : table.HasDoubles p)
    (hoperand : AllInferred p operand.nodes)
    (hrule : typeUnaryOp span op operand table = .ok result) : AllInferred p result.nodes := by
  cases unaryOutcome_of_ok hrule with
  | negation =>
      simp only [Expr.nodes, allInferred_cons]
      exact ⟨inferred_typed rfl trivial rfl doublesIn_bool doublesIn_nil,
        inferred_convert hoperand doublesIn_bool⟩
  | other _ hty =>
      have hdoubles := doublesIn_typeIn? htable hoperand.self hty
      simp only [Expr.nodes, allInferred_cons]
      exact ⟨inferred_typed rfl trivial rfl hdoubles doublesIn_nil, hoperand⟩

theorem inferred_typeCompare {op : CmpOp} (htable : table.HasDoubles p)
    (hleft : AllInferred p left.nodes) (hright : AllInferred p right.nodes)
    (hrule : typeCompare span left op right table = .ok result) : AllInferred p result.nodes := by
  cases compareOutcome_of_ok hrule with
  | same =>
      simp only [Expr.nodes, Expr.nodesAll, List.append_nil, allInferred_cons, allInferred_append]
      exact ⟨inferred_typed rfl ⟨rfl, rfl⟩ rfl doublesIn_bool doublesIn_nil, hleft, hright⟩
  | @joined _ _ ty hleftTy hrightTy hjoin =>
      have hty : DoublesIn p ty.scalars :=
        doublesIn_join (doublesIn_typeIn? htable hleft.self hleftTy)
          (doublesIn_typeIn? htable hright.self hrightTy) hjoin
      simp only [Expr.nodes, Expr.nodesAll, List.append_nil, allInferred_cons, allInferred_append]
      exact ⟨inferred_typed rfl ⟨rfl, rfl⟩ rfl doublesIn_bool doublesIn_nil,
        inferred_convert hleft hty, inferred_convert hright hty⟩

/-- The constants of inferred expressions, taken together. -/
theorem doublesIn_constants {es : List Expr} {items : List Constant} (htable : table.HasDoubles p)
    (hes : AllInferred p (Expr.nodesAll es))
    (hitems : es.mapM (Expr.constantIn? table) = some items) :
    ∀ item ∈ items, DoublesIn p item.scalars := by
  induction es generalizing items with
  | nil =>
      cases hitems
      exact List.forall_mem_nil _
  | cons e es ih =>
      obtain ⟨he, hes⟩ := allInferred_append.mp hes
      simp only [List.mapM_cons, Option.bind_eq_bind, Option.bind_eq_some_iff, Option.pure_def,
        Option.some.injEq] at hitems
      obtain ⟨item, hitem, items, hrest, rfl⟩ := hitems
      exact List.forall_mem_cons.mpr ⟨doublesIn_constantIn? htable he.self hitem, ih hes hrest⟩

theorem inferred_typeTuple {elts : List Expr} {access : Access} (htable : table.HasDoubles p)
    (helts : AllInferred p (Expr.nodesAll elts)) :
    AllInferred p (typeTuple span elts access table).nodes := by
  -- In both cases the private binding has the type of a tuple.
  have htuple {var : Variable} {value : Option (List Constant)}
      (hty : var.ty = some (.tuple elts.length value)) (hvar : DoublesIn p var.scalars) :
      AllInferred p (Expr.tuple { span, binding := some (.value var) } elts access).nodes := by
    simp only [Expr.nodes, allInferred_cons]
    exact ⟨⟨trivial, trivial, fun _ => ⟨_, _, hty⟩, doublesIn_note_value hvar, doublesIn_nil⟩,
      helts⟩
  unfold typeTuple tupleVariable
  dsimp only
  split
  · rename_i items hitems
    have hmap : elts.mapM (Expr.constantIn? table) = some items := by
      split at hitems
      · exact hitems
      · cases hitems
    have hall := doublesIn_constants htable helts hmap
    refine htuple rfl ?_
    simp only [Variable.constant, Variable.scalars, Option.toList_some, List.flatMap_singleton,
      Ty.scalars, Constant.scalars, Constant.scalarsAll_eq, doublesIn_append, doublesIn_nat,
      Ty.doublesIn_recordedScalars, doublesIn_flatMap]
    exact ⟨hall, hall⟩
  · refine htuple rfl ?_
    simp [Variable.typed, Variable.scalars, Ty.scalars]

theorem inferred_typeList {elts : List Expr} {access : Access}
    (helts : AllInferred p (Expr.nodesAll elts)) :
    AllInferred p (typeList span elts access).nodes := by
  simp only [typeList, Expr.nodes, allInferred_cons]
  refine ⟨inferred_typed rfl trivial rfl ?_ doublesIn_nil, helts⟩
  simp [Ty.scalars]

theorem inferred_typeDict {keys values : List Expr} (hkeys : AllInferred p (Expr.nodesAll keys))
    (hvalues : AllInferred p (Expr.nodesAll values)) :
    AllInferred p (typeDict span keys values table).nodes := by
  simp only [typeDict, Expr.nodes, allInferred_cons, allInferred_append]
  exact ⟨inferred_typed rfl trivial rfl doublesIn_object doublesIn_nil,
    inferred_convertAll hkeys doublesIn_object, inferred_convertAll hvalues doublesIn_object⟩

theorem inferred_typeIndex {value : Expr} (htable : table.HasDoubles p)
    (hvalue : AllInferred p value.nodes) (hrule : typeIndex span value table = .ok result) :
    AllInferred p result.nodes := by
  obtain ⟨ty, hty, rfl⟩ := exists_typeIndex hrule
  have hdoubles : DoublesIn p ty.scalars := by
    rcases hty with ⟨-, rfl⟩ | hty
    · exact doublesIn_nil
    · exact doublesIn_typeIn? htable hvalue.self hty
  simp only [Expr.nodes, allInferred_cons]
  exact ⟨inferred_typed rfl trivial rfl hdoubles doublesIn_nil, hvalue⟩

end Operators

/-! ## Attributes -/

section Attributes

variable {value result : Expr} {attr : String} {access : Access}

theorem doublesIn_metadataType {elem : Ty} (helem : DoublesIn p elem.scalars) (ndim : Nat)
    (field : ArrayAttr) : DoublesIn p (metadataType elem ndim field).scalars := by
  cases field with
  | data => exact helem
  | _ => simp [metadataType, Ty.scalars, Ty.intp, Ty.int64, Ty.int32]

theorem doublesIn_knownAttribute {setting : Setting} {ty found : Ty}
    (hsetting : setting.HasDoubles p) (hknown : KnownAttribute setting attr access ty found) :
    DoublesIn p found.scalars := by
  cases hknown with
  | dtype hmember => exact (Ty.doublesIn_base rfl).mpr (hsetting.dtype hmember)
  | part => simp [Ty.scalars]
  | object => exact doublesIn_object
  | newAxis | member => exact doublesIn_nil

theorem inferred_typeAttribute {setting : Setting} (hsetting : setting.HasDoubles p)
    (htable : table.HasDoubles p) (hvalue : AllInferred p value.nodes)
    (hrule : typeAttribute setting span value attr access table = .ok result) :
    AllInferred p result.nodes := by
  cases attributeOutcome_of_ok hrule with
  | known _ hknown =>
      have hdoubles := doublesIn_knownAttribute hsetting hknown
      simp only [Expr.nodes, allInferred_cons]
      exact ⟨inferred_typed rfl trivial rfl hdoubles doublesIn_nil, hvalue⟩
  | metadata hty =>
      have harray := Ty.doublesIn_array.mp (doublesIn_typeIn? htable hvalue.self hty)
      simp only [Expr.nodes, allInferred_cons]
      exact ⟨inferred_typed rfl trivial rfl (doublesIn_metadataType harray _ _) doublesIn_nil,
        hvalue⟩
  | dynamic =>
      simp only [Host.Function.call, Expr.nodes, Expr.nodesAll, List.append_nil, allInferred_cons,
        allInferred_append]
      refine ⟨inferred_annotated rfl trivial rfl doublesIn_object ?_,
        inferred_convert hvalue doublesIn_object, inferred_literal doublesIn_nil⟩
      simp [Expr.formScalars, Host.Function.signature, FunctionType.scalars, Ty.scalars,
        Ty.scalarsAll, Ty.cString, Ty.int8]

end Attributes

/-! ## Subscripts -/

section Subscripts

variable {value selector result : Expr} {access : Access}

theorem inferred_axes {dims : List Expr} (hselector : AllInferred p selector.nodes)
    (haxes : Axes selector dims) : AllInferred p (Expr.nodesAll dims) := by
  intro node hnode
  rcases haxes.mem_nodes hnode with hmem | ⟨span, rfl⟩
  · exact hselector node hmem
  · exact inferred_typed rfl trivial rfl doublesIn_nil doublesIn_nil

theorem doublesIn_selectedType {elem : Ty} (helem : DoublesIn p elem.scalars) (rank : Nat) :
    DoublesIn p (selectedType elem rank).scalars := by
  unfold selectedType
  split
  · exact helem
  · exact Ty.doublesIn_array.mpr helem

theorem inferred_subscript {ty : Ty} (hty : DoublesIn p ty.scalars)
    (hvalue : AllInferred p value.nodes) (hselector : AllInferred p selector.nodes) :
    AllInferred p (Expr.subscript (.typed span ty) value selector access).nodes := by
  simp only [Expr.nodes, allInferred_cons, allInferred_append]
  exact ⟨inferred_typed rfl trivial rfl hty doublesIn_nil, hvalue, hselector⟩

theorem inferred_typeSubscript (htable : table.HasDoubles p) (hvalue : AllInferred p value.nodes)
    (hselector : AllInferred p selector.nodes)
    (hrule : typeSubscript span value selector access table = .ok result) :
    AllInferred p result.nodes := by
  have hhost {selector : Expr} (hselector : AllInferred p selector.nodes) :
      AllInferred p (hostSubscript span value selector access table).nodes :=
    inferred_subscript doublesIn_object (inferred_convert hvalue doublesIn_object) hselector
  have hcombine {dims : List Expr} {place : Span} (haxes : Axes selector dims) :
      AllInferred p (Expr.extSlice (.typed place .object) dims).nodes := by
    simp only [Expr.nodes, allInferred_cons]
    exact ⟨inferred_typed rfl trivial rfl doublesIn_object doublesIn_nil,
      inferred_axes hselector haxes⟩
  have hdoubles {ty : Ty} (hty : value.typeIn? table = some ty) : DoublesIn p ty.scalars :=
    doublesIn_typeIn? htable hvalue.self hty
  cases subscriptOutcome_of_ok hrule with
  | host => exact hhost hselector
  | hostAxes _ haxes => exact hhost (hcombine haxes)
  | selection hty haxes =>
      have helem := Ty.doublesIn_array.mp (hdoubles hty)
      exact inferred_subscript (doublesIn_selectedType helem _) hvalue (hcombine haxes)
  | pointed hty hindex | counted hty hindex =>
      subst hindex
      exact inferred_subscript ((Ty.doublesIn_base rfl).mp (hdoubles hty)) hvalue
        (allInferred_cons.mp hselector).2
  | object => exact inferred_subscript doublesIn_object hvalue hselector

end Subscripts

/-! ## Calls -/

section Calls

variable {func result : Expr} {args : List Expr} {keywords : List (String × Expr)}
  {setting : Setting}

theorem inferred_convertEach {params : List Ty} (hparams : DoublesIn p (Ty.scalarsAll params))
    (hargs : AllInferred p (Expr.nodesAll args)) :
    AllInferred p (Expr.nodesAll (List.zipWith (Expr.convert table) params args)) := by
  rw [Ty.scalarsAll_eq, doublesIn_flatMap] at hparams
  refine allInferred_nodesAll.mpr fun converted hconverted => ?_
  obtain ⟨param, hparam, arg, harg, rfl⟩ := exists_of_mem_convertEach hconverted
  exact inferred_convert (allInferred_nodesAll.mp hargs arg harg) (hparams param hparam)

theorem inferred_directCall {entry : EntryPoint} (hentry : DoublesIn p entry.signature.scalars)
    (hargs : AllInferred p (Expr.nodesAll args))
    (hrule : directCall span entry args table = .ok result) : AllInferred p result.nodes := by
  obtain ⟨hret, hparams⟩ := doublesIn_append.mp hentry
  obtain ⟨-, rfl⟩ := exists_directCall hrule
  simp only [Expr.nodes, allInferred_cons]
  exact ⟨inferred_typed rfl trivial rfl hret hentry, inferred_convertEach hparams hargs⟩

theorem inferred_hostCall {ty : Ty} (hty : DoublesIn p ty.scalars)
    (hparts : AllInferred p (callNodes func args keywords)) :
    AllInferred p (hostCall span func args keywords ty table).nodes := by
  simp only [callNodes, allInferred_append] at hparts
  obtain ⟨⟨hfunc, hargs⟩, hkeywords⟩ := hparts
  obtain ⟨boxed, hcall, hboxed⟩ := exists_hostCall span func args keywords ty table
  rw [hcall]
  simp only [Expr.nodes, Expr.nodesKeywords_eq, hboxed, allInferred_cons, allInferred_append]
  exact ⟨inferred_typed rfl trivial rfl hty doublesIn_nil,
    ⟨inferred_convert hfunc doublesIn_object, inferred_convertAll hargs doublesIn_object⟩,
    inferred_convertAll hkeywords doublesIn_object⟩

theorem inferred_countedRange {start stop step : Expr} (hsetting : setting.HasDoubles p)
    (hstart : AllInferred p start.nodes) (hstop : AllInferred p stop.nodes)
    (hstep : AllInferred p step.nodes) :
    AllInferred p (countedRange setting span start stop step table).nodes := by
  simp only [countedRange, Expr.nodes, allInferred_cons, allInferred_append]
  exact ⟨inferred_typed rfl trivial rfl doublesIn_nil doublesIn_nil,
    ⟨inferred_convert hstart hsetting.index, inferred_convert hstop hsetting.index⟩,
    inferred_convert hstep hsetting.index⟩

theorem inferred_indexConstant {value : Int} (hsetting : setting.HasDoubles p) :
    AllInferred p (indexConstant setting value span).nodes :=
  inferred_constantOf (by simp [Constant.scalars]) hsetting.index

theorem inferred_typeBuiltinCall {name : String} (hsetting : setting.HasDoubles p)
    (hargs : AllInferred p (Expr.nodesAll args))
    (hrule : typeBuiltinCall setting span name args keywords table = .ok result) :
    AllInferred p result.nodes := by
  have hargs := allInferred_nodesAll.mp hargs
  have hconstant (value : Int) : AllInferred p (indexConstant setting value span).nodes :=
    inferred_indexConstant hsetting
  cases builtinOutcome_of_ok hrule with
  | upTo => exact inferred_countedRange hsetting (hconstant 0) (hargs _ (by simp)) (hconstant 1)
  | fromTo =>
      exact inferred_countedRange hsetting (hargs _ (by simp)) (hargs _ (by simp)) (hconstant 1)
  | stepping =>
      exact inferred_countedRange hsetting (hargs _ (by simp)) (hargs _ (by simp))
        (hargs _ (by simp))
  | length =>
      refine inferred_subscript (by simp [Ty.intp, Ty.int64, Ty.scalars]) ?_ (hconstant 0)
      simp only [Expr.nodes, allInferred_cons]
      refine ⟨inferred_typed rfl trivial rfl ?_ doublesIn_nil, hargs _ (by simp)⟩
      simp [Ty.intp, Ty.int64, Ty.scalars]
  | int => exact inferred_convert (hargs _ (by simp)) hsetting.int
  | float => exact inferred_convert (hargs _ (by simp)) hsetting.float

/-! ### The types of array functions -/

/-- The element type that an argument names. -/
theorem doublesIn_dtypeArgument {arg : Option Expr} {elem : Ty} (htable : table.HasDoubles p)
    (harg : ∀ e, arg = some e → AllInferred p e.nodes)
    (hdtype : dtypeArgument table arg = some (some elem)) : DoublesIn p elem.scalars := by
  obtain ⟨e, rfl, he⟩ := Option.map_eq_some_iff.mp hdtype
  split at he <;> cases he
  rename_i hty
  exact (Ty.doublesIn_base rfl).mp (doublesIn_typeIn? htable (harg e rfl).self hty)

theorem doublesIn_arrayFunctionType {attr : String} (htable : table.HasDoubles p)
    (hargs : AllInferred p (Expr.nodesAll args))
    (hkeywords : AllInferred p (Expr.nodesAll (keywords.map Prod.snd))) :
    DoublesIn p (arrayFunctionType attr args keywords table).scalars := by
  have hargs := allInferred_nodesAll.mp hargs
  have hkeyword {name : String} {e : Expr} (hfound : keywords.lookup name = some e) :
      AllInferred p e.nodes := by
    obtain ⟨before, after, rfl, -⟩ := List.lookup_eq_some_iff.mp hfound
    exact allInferred_nodesAll.mp hkeywords e (by simp)
  -- The element type is named by a keyword or else by one of the arguments.
  have hchoice {arg : Option Expr} (harg : ∀ e, arg = some e → e ∈ args) (e : Expr)
      (hfound : (keywords.lookup "dtype").or arg = some e) : AllInferred p e.nodes := by
    rcases Option.or_eq_some_iff.mp hfound with hnamed | ⟨-, hplaced⟩
    · exact hkeyword hnamed
    · exact hargs e (harg e hplaced)
  have hlike {array dtype : Option Expr} (harray : ∀ e, array = some e → AllInferred p e.nodes)
      (hdtype : ∀ e, dtype = some e → AllInferred p e.nodes) :
      DoublesIn p (Vocabulary.likeType table array dtype).scalars := by
    unfold Vocabulary.likeType
    split
    · rename_i hbound
      obtain ⟨e, he, hty⟩ := Option.bind_eq_some_iff.mp hbound
      split
      · exact doublesIn_typeIn? htable (harray e he).self hty
      · rename_i helem
        exact Ty.doublesIn_array.mpr (doublesIn_dtypeArgument htable hdtype helem)
      · exact doublesIn_object
    · exact doublesIn_object
  unfold arrayFunctionType
  split
  iterate 3
    · cases hnamed : keywords.lookup "a" with
      | some array =>
          refine hlike (fun e he => hkeyword (hnamed.trans he)) ?_
          exact hchoice fun e he => List.mem_of_head? he
      | none =>
          refine hlike (fun e he => hargs e (List.mem_of_head? he)) ?_
          exact hchoice fun e he => List.mem_of_mem_tail (List.mem_of_head? he)
  · split
    · simp [Ty.strided, Ty.int64, Ty.scalars]
    · rename_i hdtype
      exact Ty.doublesIn_array.mpr
        (doublesIn_dtypeArgument htable (hchoice fun e => List.mem_of_getElem?) hdtype)
    · exact doublesIn_object
  · exact doublesIn_object

end Calls

end Inference

end KernelFront
