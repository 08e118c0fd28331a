import KernelFront.Proofs.Inference.Rules
import KernelFront.Proofs.Questions
import KernelFront.Proofs.Vocabulary

/-! # The vocabulary of a function

A source has a vocabulary: what its literals, names, displays and attributes mention, with what the
setting supplies. If all bindings keep to it, so does the type that a rule of inference gives to an
expression, whatever the rule is. New axes are the only thing that a rule adds without end, and a
vocabulary does not count them.
-/

namespace KernelFront

namespace Expr

mutual

/-- The constant that a source expression stands for if it is found to be one. A name can only stand
for the host's `None`, and a conversion that changes nothing leaves its argument. -/
def folded? : Expr → Option Constant
  | .name _ _ _ => some .nothing
  | .const _ value => some value
  | .ellipsis _ => some .ellipsis
  | .tuple _ elts _ => (foldedAll? elts).map .tuple
  | .call _ _ args _ =>
      match foldedAll? args with
      | some [value] => some value
      | _ => none
  | _ => none

/-- The constants that several expressions stand for. -/
def foldedAll? : List Expr → Option (List Constant)
  | [] => some []
  | e :: es =>
      match folded? e, foldedAll? es with
      | some value, some values => some (value :: values)
      | _, _ => none

end

theorem forall₂_of_foldedAll? {es : List Expr} {values : List Constant}
    (hfolded : foldedAll? es = some values) :
    List.Forall₂ (fun e value => e.folded? = some value) es values := by
  induction es generalizing values with
  | nil =>
      cases hfolded
      exact .nil
  | cons e es ih =>
      rw [foldedAll?] at hfolded
      split at hfolded
      next hfirst hrest =>
        cases hfolded
        exact .cons hfirst (ih hrest)
      · cases hfolded

/-- The types that a source expression itself brings in. -/
def mentions (names : Host.Namespace) : Expr → List Ty
  | .name _ id _ =>
      match names.lookup id with
      | .builtin => [.builtin id]
      | .module owner isNumpy => [.module owner isNumpy]
      | .native entry =>
          [.function entry.signature.args entry.signature.ret, entry.signature.ret]
      | .global => [.global id]
  | .tuple _ elts _ => [.tuple elts.length none]
  | .list _ elts _ => [.list elts.length none]
  | _ => []

/-- The attribute that is read off the part of an expression. -/
def attr? : Expr → Option String
  | .attribute _ _ attr _ => some attr
  | _ => none

/-- The number of arguments of a call. -/
def arity : Expr → Nat
  | .call _ _ args _ => args.length
  | _ => 0

/-- The parts of a display, which an assignment takes out of it. -/
def elements : Expr → List Expr
  | .tuple _ elts _ | .list _ elts _ => elts
  | _ => []

end Expr

namespace Vocabulary

open Inference

/-- What the setting supplies belongs to the vocabulary. -/
structure Fits (vocabulary : Vocabulary) (setting : Setting) : Prop where
  index : vocabulary.Spells setting.options.indexType
  int : vocabulary.Spells setting.options.intBuiltin
  float : vocabulary.Spells setting.options.floatBuiltin
  shape : vocabulary.Spells (.carray .intp 0)
  rank : vocabulary.Spells .int32
  dtype : ∀ {owner attr ty}, setting.names.attribute? owner attr = some (.dtype ty) →
    vocabulary.Spells (.dtype ty)

/-- What a source expression brings in belongs to the vocabulary, its parts apart. -/
structure Admits (vocabulary : Vocabulary) (names : Host.Namespace) (e : Expr) : Prop where
  mentions : ∀ ty ∈ e.mentions names, vocabulary.Spells ty
  folded : ∀ value, e.folded? = some value → vocabulary.Spells (.ofConstant value)
  attr : ∀ attr, e.attr? = some attr → ∀ {name isNumpy},
    vocabulary.Spells (.module name isNumpy) →
      vocabulary.Spells (.moduleAttribute name attr isNumpy)
  arity : e.arity ≤ vocabulary.bound

/-- A source expression belongs to the vocabulary with all its parts. -/
def Covers (vocabulary : Vocabulary) (names : Host.Namespace) (e : Expr) : Prop :=
  ∀ node ∈ e.nodes, vocabulary.Admits names node

/-- The types of arguments belong to the vocabulary, and there are not too many of them. -/
structure SpellsAll (vocabulary : Vocabulary) (args : List Ty) : Prop where
  length : args.length ≤ vocabulary.bound
  spells : ∀ ty ∈ args, vocabulary.Spells ty

/-- Only types of the vocabulary are asked for, and only such types are the results of what is
compiled meanwhile. -/
def contract (vocabulary : Vocabulary) : Contract where
  question _ args := vocabulary.SpellsAll args
  answer
    | .native entry => vocabulary.Spells entry.signature.ret
    | .host => True

/-- A binding has a type of the vocabulary, and no other constant than `None` is bound. -/
structure Binds (vocabulary : Vocabulary) (var : Variable) : Prop where
  ty : ∀ ty, var.ty = some ty → vocabulary.Spells ty
  constant : var.isConstant → ∀ value, var.constantValue = some value → value = .nothing

/-- All bindings of a table keep to the vocabulary. -/
def Tabulates (vocabulary : Vocabulary) (table : SymbolTable) : Prop :=
  ∀ var ∈ table.vars, vocabulary.Binds var

/-- All bindings of a scope keep to the vocabulary. -/
structure Scopes (vocabulary : Vocabulary) (scope : Scope) : Prop where
  symbols : vocabulary.Tabulates scope.symbols
  natives : ∀ {name entry}, scope.natives.lookup name = some entry →
    vocabulary.Spells entry.signature.ret

/-- The type of a visited expression belongs to the vocabulary. -/
def Types (vocabulary : Vocabulary) (e : Expr) : Prop :=
  ∀ {table}, vocabulary.Tabulates table → ∀ {ty}, e.typeIn? table = some ty → vocabulary.Spells ty

/-- The type of a visited expression and those of its elements belong to the vocabulary. If it was
found to be a constant, then to the one that its source stands for. -/
structure Visits (vocabulary : Vocabulary) (source result : Expr) : Prop where
  types : vocabulary.Types result
  elements : ∀ elt ∈ result.elements, vocabulary.Types elt
  folds : ∀ {table}, vocabulary.Tabulates table →
    ∀ {value}, result.constantIn? table = some value → source.folded? = some value

variable {vocabulary : Vocabulary} {names : Host.Namespace} {setting : Setting}
  {table : SymbolTable} {span : Span}

theorem Covers.self {e : Expr} (hcovers : vocabulary.Covers names e) : vocabulary.Admits names e :=
  hcovers e e.mem_nodes_self

theorem Covers.part {e part : Expr} (hcovers : vocabulary.Covers names e)
    (hpart : part ∈ e.children) : vocabulary.Covers names part :=
  fun node hnode => hcovers node (Expr.mem_nodes_of_part hpart hnode)

theorem Fits.bound (hfits : vocabulary.Fits setting) : 1 ≤ vocabulary.bound := hfits.shape.depth

theorem Tabulates.binds (htable : vocabulary.Tabulates table) {id : SymbolId} {var : Variable}
    (hvar : table.get? id = some var) : vocabulary.Binds var :=
  htable var (List.mem_of_getElem? hvar)

/-! ## Bindings of expressions -/

section Bindings

variable {source e : Expr} {ty : Ty}

theorem types_of_binding (hbinding : e.binding = some (.value (.typed ty)))
    (hty : vocabulary.Spells ty) : vocabulary.Types e := by
  intro table _ found hfound
  rw [Expr.typeIn?, Expr.boundVar?, hbinding] at hfound
  cases hfound
  exact hty

theorem constantIn?_of_binding (hbinding : e.binding = some (.value (.typed ty))) :
    e.constantIn? table = none := by
  rw [Expr.constantIn?, Expr.boundVar?, hbinding]
  rfl

/-- An expression with a type of its own. -/
theorem visits_of_binding (hbinding : e.binding = some (.value (.typed ty)))
    (hty : vocabulary.Spells ty) (helements : ∀ elt ∈ e.elements, vocabulary.Types elt) :
    vocabulary.Visits source e := by
  refine ⟨types_of_binding hbinding hty, helements, ?_⟩
  intro table _ value hvalue
  rw [constantIn?_of_binding hbinding] at hvalue
  cases hvalue

theorem visits_typed (hbinding : e.binding = some (.value (.typed ty)))
    (helements : e.elements = []) (hty : vocabulary.Spells ty) : vocabulary.Visits source e :=
  visits_of_binding hbinding hty (helements ▸ List.forall_mem_nil _)

/-- A literal. -/
theorem types_constantOf {value : Constant} (hty : vocabulary.Spells ty) :
    vocabulary.Types (constantOf value ty span) := by
  rintro table _ found ⟨⟩
  exact hty

theorem visits_convert (hvisits : vocabulary.Visits source e) (hty : vocabulary.Spells ty) :
    vocabulary.Visits source (e.convert table ty) := by
  unfold Expr.convert
  split
  · exact hvisits
  · exact visits_typed rfl rfl hty

end Bindings

/-! ## Operators and displays -/

section Operators

variable {source left right operand result : Expr}

theorem spells_join {a b ty : Ty} (ha : vocabulary.Spells a) (hb : vocabulary.Spells b)
    (hjoin : join a b span = .ok ty) : vocabulary.Spells ty := by
  unfold join Ty.promote at hjoin
  cases hpromote : a.promote? b with
  | none =>
      rw [hpromote] at hjoin
      cases hjoin
  | some found =>
      rw [hpromote] at hjoin
      cases hjoin
      exact ha.promote? hb hpromote

theorem visits_typeBinOp {op : BinOp} (htable : vocabulary.Tabulates table)
    (hleft : vocabulary.Types left) (hright : vocabulary.Types right)
    (hrule : typeBinOp span left op right table = .ok result) :
    vocabulary.Visits source result := by
  simp only [typeBinOp, bind_eq_ok, pure_eq_ok, typeOf_eq_ok] at hrule
  obtain ⟨leftTy, hleftTy, rightTy, hrightTy, ty, hjoin, rfl⟩ := hrule
  exact visits_typed rfl rfl (spells_join (hleft htable hleftTy) (hright htable hrightTy) hjoin)

theorem visits_typeUnaryOp {op : UnaryOp} (htable : vocabulary.Tabulates table)
    (hoperand : vocabulary.Types operand)
    (hrule : typeUnaryOp span op operand table = .ok result) :
    vocabulary.Visits source result := by
  cases unaryOutcome_of_ok hrule with
  | negation => exact visits_typed rfl rfl (.plain rfl rfl)
  | other _ hty => exact visits_typed rfl rfl (hoperand htable hty)

theorem visits_typeCompare {op : CmpOp}
    (hrule : typeCompare span left op right table = .ok result) :
    vocabulary.Visits source result := by
  cases compareOutcome_of_ok hrule <;> exact visits_typed rfl rfl (.plain rfl rfl)

/-- The constants of visited parts are those that the parts of the source stand for. -/
theorem foldedAll?_of_mapM {sources results : List Expr} {values : List Constant}
    (htable : vocabulary.Tabulates table)
    (hvisits : List.Forall₂ vocabulary.Visits sources results)
    (hvalues : results.mapM (Expr.constantIn? table) = some values) :
    Expr.foldedAll? sources = some values ∧ results.length = values.length := by
  induction hvisits generalizing values with
  | nil =>
      cases hvalues
      exact ⟨rfl, rfl⟩
  | cons hvisit hvisits ih =>
      simp only [List.mapM_cons, Option.bind_eq_bind, Option.bind_eq_some_iff, Option.pure_def,
        Option.some.injEq] at hvalues
      obtain ⟨value, hvalue, values, hrest, rfl⟩ := hvalues
      obtain ⟨hfolded, hlength⟩ := ih hrest
      refine ⟨?_, congrArg Nat.succ hlength⟩
      simp only [Expr.foldedAll?, hvisit.folds htable hvalue, hfolded]

theorem types_of_visits {sources results : List Expr}
    (hvisits : List.Forall₂ vocabulary.Visits sources results) :
    ∀ result ∈ results, vocabulary.Types result := by
  induction hvisits with
  | nil => exact List.forall_mem_nil _
  | cons hvisit _ ih => exact List.forall_mem_cons.mpr ⟨hvisit.types, ih⟩

theorem visits_typeTuple {note : Note} {sources elts : List Expr} {access sourceAccess : Access}
    (htable : vocabulary.Tabulates table)
    (hadmits : vocabulary.Admits names (.tuple note sources sourceAccess))
    (helts : List.Forall₂ vocabulary.Visits sources elts) :
    vocabulary.Visits (.tuple note sources sourceAccess) (typeTuple span elts access table) := by
  have hlength : sources.length = elts.length := helts.length_eq
  unfold typeTuple tupleVariable
  dsimp only
  split
  · rename_i items hitems
    have hmap : elts.mapM (Expr.constantIn? table) = some items := by
      split at hitems
      · exact hitems
      · cases hitems
    -- The tuple is the constant that its source stands for.
    obtain ⟨hitems, hsize⟩ := foldedAll?_of_mapM htable helts hmap
    have hfolded : (Expr.tuple note sources sourceAccess).folded? = some (.tuple items) := by
      rw [Expr.folded?, hitems]
      rfl
    have hspells := hadmits.folded _ hfolded
    refine ⟨?_, types_of_visits helts, ?_⟩
    · rintro other _ ty ⟨⟩
      rw [hsize]
      exact hspells
    · rintro other _ value ⟨⟩
      exact hfolded
  · refine visits_of_binding rfl ?_ (types_of_visits helts)
    rw [← hlength]
    exact hadmits.mentions _ List.mem_cons_self

theorem visits_typeIndex {value : Expr} (htable : vocabulary.Tabulates table)
    (hvalue : vocabulary.Types value) (hrule : typeIndex span value table = .ok result) :
    vocabulary.Visits source result := by
  obtain ⟨ty, ⟨-, rfl⟩ | hty, rfl⟩ := exists_typeIndex hrule
  · exact visits_typed rfl rfl (.plain rfl rfl)
  · exact visits_typed rfl rfl (hvalue htable hty)

end Operators

/-! ## Attributes and subscripts -/

section Accesses

variable {source value selector result : Expr} {access : Access}

theorem spells_metadataType {elem : Ty} {layout : Layout} (hfits : vocabulary.Fits setting)
    (harray : vocabulary.Spells (.array elem layout)) (field : ArrayAttr) :
    vocabulary.Spells (metadataType elem layout.ndim field) := by
  cases field with
  | data => exact ⟨harray.letters, harray.depth⟩
  | shape => exact ⟨hfits.shape.letters, hfits.shape.depth⟩
  | strides => exact ⟨hfits.shape.letters, hfits.shape.depth⟩
  | ndim => exact hfits.rank

theorem visits_typeAttribute {note : Note} {attr : String} {sourceAccess : Access}
    (hfits : vocabulary.Fits setting) (htable : vocabulary.Tabulates table)
    (hadmits : vocabulary.Admits setting.names (.attribute note source attr sourceAccess))
    (hvalue : vocabulary.Types value)
    (hrule : typeAttribute setting span value attr access table = .ok result) :
    vocabulary.Visits (.attribute note source attr sourceAccess) result := by
  cases attributeOutcome_of_ok hrule with
  | known hty hknown =>
      have hspells := hvalue htable hty
      cases hknown with
      | part => exact visits_typed rfl rfl (.flat rfl hspells.letters)
      | newAxis | object => exact visits_typed rfl rfl (.plain rfl rfl)
      | dtype hmember => exact visits_typed rfl rfl (hfits.dtype hmember)
      | member => exact visits_typed rfl rfl (hadmits.attr _ rfl hspells)
  | metadata hty => exact visits_typed rfl rfl (spells_metadataType hfits (hvalue htable hty) _)
  | dynamic => exact visits_typed rfl rfl (.plain rfl rfl)

/-- What is left of an array is one of its elements or has as many axes as there are left. -/
theorem spells_selectedType {elem : Ty} {layout : Layout}
    (harray : vocabulary.Spells (.array elem layout)) (rank : Nat) :
    vocabulary.Spells (selectedType elem rank) := by
  unfold selectedType
  split
  · exact harray.base rfl
  · exact harray.strided _

theorem visits_typeSubscript (htable : vocabulary.Tabulates table)
    (hvalue : vocabulary.Types value)
    (hrule : typeSubscript span value selector access table = .ok result) :
    vocabulary.Visits source result := by
  cases subscriptOutcome_of_ok hrule with
  | host | hostAxes | object => exact visits_typed rfl rfl (.plain rfl rfl)
  | selection hty =>
      exact visits_typed rfl rfl (spells_selectedType (hvalue htable hty) _)
  | pointed hty | counted hty => exact visits_typed rfl rfl ((hvalue htable hty).base rfl)

end Accesses

/-! ## Calls -/

section Calls

variable {source result : Expr} {sources args : List Expr} {keywords : List (String × Expr)}

theorem visits_directCall {entry : EntryPoint} (hret : vocabulary.Spells entry.signature.ret)
    (hrule : directCall span entry args table = .ok result) :
    vocabulary.Visits source result := by
  obtain ⟨-, rfl⟩ := exists_directCall hrule
  exact visits_typed rfl rfl hret

theorem visits_typeBuiltinCall {note : Note} {func : Expr} {name : String}
    {sourceKeywords : List (String × Expr)} (hfits : vocabulary.Fits setting)
    (hargs : List.Forall₂ vocabulary.Visits sources args)
    (hrule : typeBuiltinCall setting span name args keywords table = .ok result) :
    vocabulary.Visits (.call note func sources sourceKeywords) result := by
  -- A conversion that changes nothing leaves its argument.
  have hconvert {arg : Expr} {ty : Ty} (hargs : List.Forall₂ vocabulary.Visits sources [arg])
      (hty : vocabulary.Spells ty) :
      vocabulary.Visits (.call note func sources sourceKeywords) (arg.convert table ty) := by
    obtain ⟨source, rest, harg, hnil, rfl⟩ := List.forall₂_cons_right_iff.mp hargs
    obtain rfl := List.forall₂_nil_right_iff.mp hnil
    refine visits_convert ⟨harg.types, harg.elements, ?_⟩ hty
    intro table htable value hvalue
    simp only [Expr.folded?, Expr.foldedAll?, harg.folds htable hvalue]
  cases builtinOutcome_of_ok hrule with
  | upTo | fromTo | stepping => exact visits_typed rfl rfl (.plain rfl rfl)
  | length => exact visits_typed rfl rfl (hfits.shape.base rfl)
  | int => exact hconvert hargs hfits.int
  | float => exact hconvert hargs hfits.float

/-- The element type that an argument names is one of the vocabulary, as an array too. -/
theorem spells_dtypeArgument {arg : Option Expr} {elem : Ty} (htable : vocabulary.Tabulates table)
    (harg : ∀ e, arg = some e → vocabulary.Types e)
    (hdtype : dtypeArgument table arg = some (some elem)) (layout : Layout) :
    vocabulary.Spells (.array elem layout) := by
  obtain ⟨e, rfl, he⟩ := Option.map_eq_some_iff.mp hdtype
  split at he <;> cases he
  rename_i hty
  have hspells := harg e rfl htable hty
  exact ⟨hspells.letters, hspells.depth⟩

/-- The type of an array that is made like another one, perhaps with elements of another type. -/
def likeType (table : SymbolTable) (array dtype : Option Expr) : Ty :=
  match array.bind (Expr.typeIn? table) with
  | some (.array elem layout) =>
      match dtypeArgument table dtype with
      | none => .array elem layout
      | some (some elem) => .strided elem layout.ndim
      | some none => .object
  | _ => .object

theorem spells_likeType {array dtype : Option Expr} (htable : vocabulary.Tabulates table)
    (harray : ∀ e, array = some e → vocabulary.Types e)
    (hdtype : ∀ e, dtype = some e → vocabulary.Types e) :
    vocabulary.Spells (likeType table array dtype) := by
  unfold likeType
  split
  · rename_i elem layout hbound
    obtain ⟨e, he, hty⟩ := Option.bind_eq_some_iff.mp hbound
    split
    · exact harray e he htable hty
    · rename_i helem
      exact spells_dtypeArgument htable hdtype helem _
    · exact .plain rfl rfl
  · exact .plain rfl rfl

theorem spells_arrayFunctionType {attr : String} (hfits : vocabulary.Fits setting)
    (htable : vocabulary.Tabulates table) (hargs : ∀ arg ∈ args, vocabulary.Types arg)
    (hkeywords : ∀ arg ∈ keywords.map Prod.snd, vocabulary.Types arg) :
    vocabulary.Spells (arrayFunctionType attr args keywords table) := by
  have hkeyword {name : String} {e : Expr} (hfound : keywords.lookup name = some e) :
      vocabulary.Types e := by
    obtain ⟨before, after, rfl, -⟩ := List.lookup_eq_some_iff.mp hfound
    exact hkeywords e (by simp)
  -- The element type is named by a keyword or else by one of the arguments.
  have hchoice {arg : Option Expr} (harg : ∀ e, arg = some e → e ∈ args) (e : Expr)
      (hfound : (keywords.lookup "dtype").or arg = some e) : vocabulary.Types e := by
    rcases Option.or_eq_some_iff.mp hfound with hnamed | ⟨-, hplaced⟩
    · exact hkeyword hnamed
    · exact hargs e (harg e hplaced)
  unfold arrayFunctionType
  split
  iterate 3
    · cases hnamed : keywords.lookup "a" with
      | some array =>
          refine spells_likeType htable (fun e he => hkeyword (hnamed.trans he)) ?_
          exact hchoice fun e he => List.mem_of_head? he
      | none =>
          refine spells_likeType htable (fun e he => hargs e (List.mem_of_head? he)) ?_
          exact hchoice fun e he => List.mem_of_mem_tail (List.mem_of_head? he)
  · split
    · exact ⟨hfits.shape.letters, hfits.shape.depth⟩
    · rename_i hdtype
      exact spells_dtypeArgument htable (hchoice fun e => List.mem_of_getElem?) hdtype _
    · exact .plain rfl rfl
  · exact .plain rfl rfl

end Calls

end Vocabulary

end KernelFront
