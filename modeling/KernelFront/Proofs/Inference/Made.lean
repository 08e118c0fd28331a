import KernelFront.Proofs.Inference.Reads
import KernelFront.Proofs.Inference.Repeats
import KernelFront.Proofs.Inference.Spelling

/-! # What rules make

A rule builds an expression around the parts that were visited. What it adds to them is never a
name, and its only constants are strings and, in the index type, the bounds of a range. So whatever
holds of such additions and of every node of the parts holds of every node of the result.
-/

namespace KernelFront.Inference

/-- Something holds of all these expressions. -/
def Throughout (good : Expr → Prop) (nodes : List Expr) : Prop :=
  ∀ node ∈ nodes, good node

/-- What a rule may add to the parts of a source expression: no name, no constant but a string or a
bound in the index type, and no tuple but one of as many elements as the display was wide. -/
def IsMade (index : Ty) (width : Nat) : Expr → Prop
  | .name _ _ _ => False
  | .const note value =>
      (∃ text, value = .str text) ∨
        (value = .int 0 ∨ value = .int 1) ∧ note.binding = some (.value (.constant value index))
  | .tuple _ elts _ => elts.length = width
  | _ => True

variable {good : Expr → Prop} {table : SymbolTable} {span : Span} {setting : Setting} {width : Nat}

section Throughout

@[simp] theorem throughout_nil : Throughout good [] := List.forall_mem_nil _

@[simp] theorem throughout_cons {node : Expr} {nodes : List Expr} :
    Throughout good (node :: nodes) ↔ good node ∧ Throughout good nodes :=
  List.forall_mem_cons

@[simp] theorem throughout_append {first second : List Expr} :
    Throughout good (first ++ second) ↔ Throughout good first ∧ Throughout good second :=
  List.forall_mem_append

theorem throughout_nodesAll {es : List Expr} :
    Throughout good (Expr.nodesAll es) ↔ ∀ e ∈ es, Throughout good e.nodes := by
  induction es with
  | nil => simp [Expr.nodesAll]
  | cons e es ih => simp only [Expr.nodesAll, throughout_append, ih, List.forall_mem_cons]

/-- An expression for which it holds, with parts for which it does. -/
theorem throughout_node {e : Expr} (hself : good e)
    (hparts : Throughout good (Expr.nodesAll e.children)) : Throughout good e.nodes := by
  rw [Expr.nodes_eq]
  exact throughout_cons.mpr ⟨hself, hparts⟩

theorem Throughout.parts {e : Expr} (he : Throughout good e.nodes) :
    Throughout good (Expr.nodesAll e.children) := by
  rw [Expr.nodes_eq] at he
  exact (throughout_cons.mp he).2

/-- A conversion is the only thing that converting an expression can add. -/
theorem throughout_converted (hcoercion : ∀ note e ty, good (.coercion note e ty)) {e : Expr}
    (ty : Ty) (he : Throughout good e.nodes) : Throughout good (e.convert table ty).nodes := by
  unfold Expr.convert
  split
  · exact he
  · exact throughout_cons.mpr ⟨hcoercion _ _ _, he⟩

end Throughout

variable (hmade : ∀ node, IsMade setting.options.indexType width node → good node)

include hmade

theorem throughout_convert {e : Expr} (ty : Ty) (he : Throughout good e.nodes) :
    Throughout good (e.convert table ty).nodes :=
  throughout_converted (fun _ _ _ => hmade _ trivial) ty he

theorem throughout_convertAll {es : List Expr} (ty : Ty)
    (hes : Throughout good (Expr.nodesAll es)) :
    Throughout good (Expr.nodesAll (es.map (Expr.convert table ty))) := by
  rw [throughout_nodesAll] at hes ⊢
  exact List.forall_mem_map.mpr fun e he => throughout_convert hmade ty (hes e he)

/-! ## Operators and attributes -/

section Operators

variable {left right operand value result : Expr}

theorem throughout_typeBinOp {op : BinOp} (hleft : Throughout good left.nodes)
    (hright : Throughout good right.nodes)
    (hrule : typeBinOp span left op right table = .ok result) : Throughout good result.nodes := by
  simp only [typeBinOp, bind_eq_ok, pure_eq_ok] at hrule
  obtain ⟨_, _, _, _, ty, _, rfl⟩ := hrule
  simp only [Expr.nodes, throughout_cons, throughout_append]
  exact ⟨hmade _ trivial, throughout_convert hmade ty hleft, throughout_convert hmade ty hright⟩

theorem throughout_typeUnaryOp {op : UnaryOp} (hoperand : Throughout good operand.nodes)
    (hrule : typeUnaryOp span op operand table = .ok result) : Throughout good result.nodes := by
  cases unaryOutcome_of_ok hrule with
  | negation => exact throughout_cons.mpr ⟨hmade _ trivial, throughout_convert hmade .bool hoperand⟩
  | other => exact throughout_cons.mpr ⟨hmade _ trivial, hoperand⟩

theorem throughout_typeCompare {op : CmpOp} (hleft : Throughout good left.nodes)
    (hright : Throughout good right.nodes)
    (hrule : typeCompare span left op right table = .ok result) :
    Throughout good result.nodes := by
  cases compareOutcome_of_ok hrule with
  | same =>
      simp only [Expr.nodes, Expr.nodesAll, List.append_nil, throughout_cons, throughout_append]
      exact ⟨hmade _ trivial, hleft, hright⟩
  | joined =>
      simp only [Expr.nodes, Expr.nodesAll, List.append_nil, throughout_cons, throughout_append]
      exact ⟨hmade _ trivial, throughout_convert hmade _ hleft, throughout_convert hmade _ hright⟩

theorem throughout_typeIndex (hvalue : Throughout good value.nodes)
    (hrule : typeIndex span value table = .ok result) : Throughout good result.nodes := by
  obtain ⟨_, -, rfl⟩ := exists_typeIndex hrule
  exact throughout_cons.mpr ⟨hmade _ trivial, hvalue⟩

theorem throughout_typeAttribute {attr : String} {access : Access}
    (hvalue : Throughout good value.nodes)
    (hrule : typeAttribute setting span value attr access table = .ok result) :
    Throughout good result.nodes := by
  cases attributeOutcome_of_ok hrule with
  | known | metadata => exact throughout_cons.mpr ⟨hmade _ trivial, hvalue⟩
  | dynamic =>
      simp only [Host.Function.call, literal, constantOf, Expr.nodes, Expr.nodesAll,
        throughout_cons, throughout_append, throughout_nil, and_true]
      exact ⟨hmade _ trivial, throughout_convert hmade .object hvalue,
        hmade _ (.inl ⟨attr, rfl⟩)⟩

end Operators

/-! ## Subscripts -/

section Subscripts

variable {value selector result : Expr} {access : Access}

theorem throughout_axes {dims : List Expr} (hselector : Throughout good selector.nodes)
    (haxes : Axes selector dims) : Throughout good (Expr.nodesAll dims) := by
  intro node hnode
  rcases haxes.mem_nodes hnode with hmem | ⟨span, rfl⟩
  · exact hselector node hmem
  · exact hmade _ trivial

theorem throughout_typeSubscript (hvalue : Throughout good value.nodes)
    (hselector : Throughout good selector.nodes)
    (hrule : typeSubscript span value selector access table = .ok result) :
    Throughout good result.nodes := by
  have hsubscript {ty : Ty} {selector : Expr} (hselector : Throughout good selector.nodes) :
      Throughout good (Expr.subscript (.typed span ty) value selector access).nodes := by
    simp only [Expr.nodes, throughout_cons, throughout_append]
    exact ⟨hmade _ trivial, hvalue, hselector⟩
  have hhost {selector : Expr} (hselector : Throughout good selector.nodes) :
      Throughout good (hostSubscript span value selector access table).nodes := by
    simp only [hostSubscript, Expr.nodes, throughout_cons, throughout_append]
    exact ⟨hmade _ trivial, throughout_convert hmade .object hvalue, hselector⟩
  have hcombine {place : Span} {dims : List Expr} (haxes : Axes selector dims) :
      Throughout good (Expr.extSlice (.typed place .object) dims).nodes :=
    throughout_node (hmade _ trivial) (throughout_axes hmade hselector haxes)
  cases subscriptOutcome_of_ok hrule with
  | host => exact hhost hselector
  | hostAxes _ haxes => exact hhost (hcombine haxes)
  | selection _ haxes => exact hsubscript (hcombine haxes)
  | pointed _ hindex | counted _ hindex =>
      subst hindex
      exact hsubscript (throughout_cons.mp hselector).2
  | object => exact hsubscript hselector

end Subscripts

/-! ## Calls -/

section Calls

variable {func result : Expr} {args : List Expr} {keywords : List (String × Expr)}
  {before after : Scope}

theorem throughout_hostCall (ty : Ty) (hparts : Throughout good (callNodes func args keywords)) :
    Throughout good (hostCall span func args keywords ty table).nodes := by
  obtain ⟨boxed, hcall, hboxed⟩ := exists_hostCall span func args keywords ty table
  simp only [callNodes, throughout_append] at hparts
  simp only [hcall, Expr.nodes, Expr.nodesKeywords_eq, hboxed, throughout_cons, throughout_append]
  exact ⟨hmade _ trivial, ⟨throughout_convert hmade .object hparts.1.1,
    throughout_convertAll hmade .object hparts.1.2⟩, throughout_convertAll hmade .object hparts.2⟩

theorem throughout_directCall {entry : EntryPoint} (hargs : Throughout good (Expr.nodesAll args))
    (hrule : directCall span entry args table = .ok result) : Throughout good result.nodes := by
  obtain ⟨-, rfl⟩ := exists_directCall hrule
  refine throughout_node (hmade _ trivial) (throughout_nodesAll.mpr fun converted hconverted => ?_)
  obtain ⟨param, -, arg, harg, rfl⟩ := exists_of_mem_convertEach hconverted
  exact throughout_convert hmade param (throughout_nodesAll.mp hargs arg harg)

theorem throughout_builtin (hargs : Throughout good (Expr.nodesAll args))
    (hbuiltin : BuiltinOutcome setting span table args result) :
    Throughout good result.nodes := by
  have hrange {start stop step : Expr} (hstart : Throughout good start.nodes)
      (hstop : Throughout good stop.nodes) (hstep : Throughout good step.nodes) :
      Throughout good (countedRange setting span start stop step table).nodes := by
    simp only [countedRange, Expr.nodes, throughout_cons, throughout_append]
    exact ⟨hmade _ trivial, ⟨throughout_convert hmade _ hstart, throughout_convert hmade _ hstop⟩,
      throughout_convert hmade _ hstep⟩
  have hconstant {value : Int} (hvalue : Constant.int value = .int 0 ∨ Constant.int value = .int 1) :
      Throughout good (indexConstant setting value span).nodes :=
    List.forall_mem_singleton.mpr (hmade _ (.inr ⟨hvalue, rfl⟩))
  have hargs := throughout_nodesAll.mp hargs
  cases hbuiltin with
  | upTo => exact hrange (hconstant (.inl rfl)) (hargs _ (by simp)) (hconstant (.inr rfl))
  | fromTo => exact hrange (hargs _ (by simp)) (hargs _ (by simp)) (hconstant (.inr rfl))
  | stepping => exact hrange (hargs _ (by simp)) (hargs _ (by simp)) (hargs _ (by simp))
  | length =>
      simp only [Expr.nodes, throughout_cons, throughout_append]
      exact ⟨hmade _ trivial, ⟨hmade _ trivial, hargs _ (by simp)⟩, hconstant (.inl rfl)⟩
  | int | float => exact throughout_convert hmade _ (hargs _ (by simp))

theorem throughout_typeCall (hparts : Throughout good (callNodes func args keywords))
    (hcall : Pass.Reaches (typeCall setting span func args keywords) before result after) :
    Throughout good result.nodes := by
  have hargs : Throughout good (Expr.nodesAll args) := by
    simp only [callNodes, throughout_append] at hparts
    exact hparts.1.2
  obtain ⟨-, houtcome⟩ := callOutcome_of_reaches hcall
  cases houtcome with
  | builtin hbuiltin => exact throughout_builtin hmade hargs hbuiltin
  | direct hrule => exact throughout_directCall hmade hargs hrule
  | host => exact throughout_hostCall hmade _ hparts

end Calls

omit hmade

/-! ## Expressions -/


/-- An expression other than a name or a constant is visited by visiting its parts, and what becomes
of it is made around what becomes of its parts. -/
theorem made_of_parts {e result : Expr} {before after : Scope} (hname : e.asName = none)
    (hconst : ∀ note value, e ≠ .const note value)
    (hreach : Pass.Reaches (inferExpr setting e) before result after) :
    ∃ parts, Pass.Reaches (inferAll setting e.children) before parts after ∧
      ∀ good : Expr → Prop,
        (∀ node, IsMade setting.options.indexType e.elements.length node → good node) →
          Throughout good (Expr.nodesAll parts) → Throughout good result.nodes := by
  have hone {e result : Expr} {before after : Scope}
      (he : Pass.Reaches (inferExpr setting e) before result after) :
      Pass.Reaches (inferAll setting [e]) before [result] after :=
    reaches_inferAll_singleton.mpr ⟨result, he, rfl⟩
  have hboth {first second heads tails : List Expr} {before middle after : Scope}
      (hfirst : Pass.Reaches (inferAll setting first) before heads middle)
      (hsecond : Pass.Reaches (inferAll setting second) middle tails after) :
      Pass.Reaches (inferAll setting (first ++ second)) before (heads ++ tails) after :=
    reaches_inferAll_append.mpr ⟨heads, middle, tails, hfirst, hsecond, rfl⟩
  have hpart {e : Expr} {good : Expr → Prop} (he : Throughout good (Expr.nodesAll [e])) :
      Throughout good e.nodes := throughout_nodesAll.mp he e List.mem_cons_self
  cases e with
  | name => cases hname
  | const note value => exact absurd rfl (hconst note value)
  | ellipsis =>
      simp only [inferExpr, Pass.reaches_pure] at hreach
      obtain ⟨rfl, rfl⟩ := hreach
      exact ⟨[], by simp [Expr.children, inferAll], fun good hmade _ =>
        throughout_node (hmade _ trivial) throughout_nil⟩
  | binOp note left op right =>
      simp only [inferExpr, Pass.reaches_bind, reaches_apply] at hreach
      obtain ⟨_, _, hleft, _, _, hright, hrule, rfl⟩ := hreach
      refine ⟨_, hboth (hone hleft) (hone hright), fun good hmade hparts => ?_⟩
      simp only [Expr.nodesAll_append, throughout_append] at hparts
      exact throughout_typeBinOp hmade (hpart hparts.1) (hpart hparts.2) hrule
  | boolOp note op values =>
      obtain ⟨_, hvalues, rfl⟩ := reaches_boolOp hreach
      exact ⟨_, hvalues, fun good hmade hparts =>
        throughout_node (hmade _ trivial) (throughout_convertAll hmade .bool hparts)⟩
  | unaryOp note op operand =>
      simp only [inferExpr, Pass.reaches_bind, reaches_apply] at hreach
      obtain ⟨_, _, hoperand, hrule, rfl⟩ := hreach
      exact ⟨_, hone hoperand, fun good hmade hparts =>
        throughout_typeUnaryOp hmade (hpart hparts) hrule⟩
  | compare note left ops comparators =>
      obtain ⟨_, _, _, _, hleft, hright, hrule⟩ := reaches_compare hreach
      refine ⟨_, hboth (hone hleft) hright, fun good hmade hparts => ?_⟩
      simp only [Expr.nodesAll_append, throughout_append] at hparts
      exact throughout_typeCompare hmade (hpart hparts.1) (hpart hparts.2) hrule
  | call note func args keywords =>
      simp only [inferExpr, Pass.reaches_bind] at hreach
      obtain ⟨_, _, hfunc, _, _, hargs, _, _, hkeywords, hcall⟩ := hreach
      obtain ⟨rfl, -⟩ := visited_typeCall hcall
      refine ⟨_, hboth (hone hfunc) (hboth hargs (inferAll_of_keywords hkeywords)),
        fun good hmade hparts => throughout_typeCall hmade ?_ hcall⟩
      simp only [Expr.nodesAll_append, throughout_append] at hparts
      simp only [callNodes, throughout_append]
      exact ⟨⟨hpart hparts.1, hparts.2.1⟩, hparts.2.2⟩
  | «attribute» note value attr access =>
      simp only [inferExpr, Pass.reaches_bind, reaches_apply] at hreach
      obtain ⟨_, _, hvalue, hrule, rfl⟩ := hreach
      exact ⟨_, hone hvalue, fun good hmade hparts =>
        throughout_typeAttribute hmade (hpart hparts) hrule⟩
  | subscript note value selector access =>
      simp only [inferExpr, Pass.reaches_bind, reaches_apply] at hreach
      obtain ⟨_, _, hvalue, _, _, hselector, hrule, rfl⟩ := hreach
      refine ⟨_, hboth (hone hvalue) (hone hselector), fun good hmade hparts => ?_⟩
      simp only [Expr.nodesAll_append, throughout_append] at hparts
      exact throughout_typeSubscript hmade (hpart hparts.1) (hpart hparts.2) hrule
  | index note value =>
      simp only [inferExpr, Pass.reaches_bind, reaches_apply] at hreach
      obtain ⟨_, _, hvalue, hrule, rfl⟩ := hreach
      exact ⟨_, hone hvalue, fun good hmade hparts =>
        throughout_typeIndex hmade (hpart hparts) hrule⟩
  | slice note lower upper step =>
      simp only [inferExpr, Pass.reaches_bind, Pass.reaches_pure] at hreach
      obtain ⟨_, _, hlower, _, _, hupper, _, _, hstep, rfl, rfl⟩ := hreach
      exact ⟨_, hboth (hboth (inferAll_of_part hlower) (inferAll_of_part hupper))
        (inferAll_of_part hstep), fun good hmade hparts =>
          throughout_node (hmade _ trivial) hparts⟩
  | extSlice note dims =>
      simp only [inferExpr, Pass.reaches_bind, Pass.reaches_pure] at hreach
      obtain ⟨_, _, hdims, rfl, rfl⟩ := hreach
      exact ⟨_, hdims, fun good hmade hparts => throughout_node (hmade _ trivial) hparts⟩
  | tuple note elts access =>
      simp only [inferExpr, Pass.reaches_bind, reaches_apply, Except.ok.injEq] at hreach
      obtain ⟨_, _, helts, rfl, rfl⟩ := hreach
      exact ⟨_, helts, fun good hmade hparts =>
        throughout_node (hmade _ (length_inferAll helts)) hparts⟩
  | list note elts access =>
      simp only [inferExpr, Pass.reaches_bind, Pass.reaches_pure] at hreach
      obtain ⟨_, _, helts, rfl, rfl⟩ := hreach
      exact ⟨_, helts, fun good hmade hparts => throughout_node (hmade _ trivial) hparts⟩
  | dict note keys values =>
      simp only [inferExpr, Pass.reaches_bind, reaches_apply, Except.ok.injEq] at hreach
      obtain ⟨_, _, hkeys, _, _, hvalues, rfl, rfl⟩ := hreach
      refine ⟨_, hboth hkeys hvalues, fun good hmade hparts =>
        throughout_node (hmade _ trivial) ?_⟩
      simp only [Expr.nodesAll_append, throughout_append] at hparts
      simp only [typeDict, Expr.children, Expr.nodesAll_append, throughout_append]
      exact ⟨throughout_convertAll hmade .object hparts.1,
        throughout_convertAll hmade .object hparts.2⟩
  | _ => simp only [inferExpr, not_reaches_refuse] at hreach

/-! ## Statements -/

section Statements

variable {target value : Expr} {stmt : Stmt} {before after : Scope}

theorem throughout_typeStore (hcoercion : ∀ note e ty, good (.coercion note e ty))
    (htarget : Throughout good target.nodes) (hvalue : Throughout good value.nodes)
    (hreach : Pass.Reaches (typeStore target value span) before stmt after) :
    Throughout good (Stmt.nodesBody [stmt]) := by
  have hassign {stored : Expr} (hstored : Throughout good stored.nodes) :
      Throughout good (Stmt.nodesBody [.assign span [target] stored]) := by
    simp [Stmt.nodesBody, Stmt.nestedBody, Stmt.nested, Stmt.nodes, Stmt.exprs, Expr.nodesAll,
      htarget, hstored]
  cases storeOutcome_of_reaches hreach with
  | fresh => exact hassign hvalue
  | settled => exact hassign (throughout_converted hcoercion _ hvalue)

theorem throughout_inferReturn {value : Option Expr}
    (hdeferred : ∀ note e slot, good (.deferredCoercion note e slot))
    (hvalue : Throughout good (Expr.nodesAll value.toList))
    (hreach : Pass.Reaches (inferReturn span value) before stmt after) :
    Throughout good (Stmt.nodesBody [stmt]) := by
  cases returnOutcome_of_reaches hreach with
  | nothing => exact throughout_nil
  | value =>
      simp only [Stmt.nodesBody, Stmt.nestedBody, Stmt.nested, Stmt.nodes, Stmt.exprs,
        List.append_nil, List.flatMap_cons, List.flatMap_nil, Option.toList_some, Expr.nodesAll,
        Expr.nodes, throughout_cons] at hvalue ⊢
      exact ⟨hdeferred _ _ _, hvalue⟩

end Statements

/-! ## Names -/

/-- All names among these expressions are good. -/
def Names (good : Expr → Prop) (nodes : List Expr) : Prop :=
  ∀ node ∈ nodes, node.asName.isSome → good node

@[simp] theorem names_nil : Names good [] := List.forall_mem_nil _

@[simp] theorem names_cons {node : Expr} {nodes : List Expr} :
    Names good (node :: nodes) ↔ (node.asName.isSome → good node) ∧ Names good nodes :=
  List.forall_mem_cons

@[simp] theorem names_append {first second : List Expr} :
    Names good (first ++ second) ↔ Names good first ∧ Names good second :=
  List.forall_mem_append

theorem names_nodesAll {es : List Expr} :
    Names good (Expr.nodesAll es) ↔ ∀ e ∈ es, Names good e.nodes := by
  induction es with
  | nil => simp [Expr.nodesAll]
  | cons e es ih => simp only [Expr.nodesAll, names_append, ih, List.forall_mem_cons]

/-- The names of an expression that is none itself are those of its parts. -/
theorem names_below {e : Expr} (hother : e.asName = none) :
    Names good e.nodes ↔ Names good (Expr.nodesAll e.children) := by
  simp [Expr.nodes_eq e, hother]

@[simp] theorem names_convert {e : Expr} {ty : Ty} :
    Names good (e.convert table ty).nodes ↔ Names good e.nodes := by
  unfold Expr.convert
  split
  · rfl
  · simp [Expr.nodes, Expr.asName]

@[simp] theorem names_convertAll {es : List Expr} {ty : Ty} :
    Names good (Expr.nodesAll (es.map (Expr.convert table ty))) ↔
      Names good (Expr.nodesAll es) := by
  simp [names_nodesAll]

@[simp] theorem names_constantOf (value : Constant) (ty : Ty) (span : Span) :
    Names good (constantOf value ty span).nodes := by
  simp [constantOf, Expr.nodes, Expr.asName]

/-- An expression other than a name is visited by visiting its parts, and the names in what becomes
of it are those in what becomes of its parts. -/
theorem names_of_parts {setting : Setting} {e result : Expr} {before after : Scope}
    (hother : e.asName = none)
    (hreach : Pass.Reaches (inferExpr setting e) before result after) :
    ∃ parts, Pass.Reaches (inferAll setting e.children) before parts after ∧
      ∀ good, Names good (Expr.nodesAll parts) → Names good result.nodes := by
  cases e with
  | const note value =>
      simp only [inferExpr, Pass.reaches_pure] at hreach
      obtain ⟨rfl, rfl⟩ := hreach
      exact ⟨[], by simp [Expr.children, inferAll], fun good _ => names_constantOf _ _ _⟩
  | _ =>
      obtain ⟨parts, hparts, hmade⟩ := made_of_parts hother (by simp) hreach
      refine ⟨parts, hparts, fun good hnames => hmade _ (fun node hnode => ?_) hnames⟩
      cases node with
      | name => exact hnode.elim
      | _ => exact Bool.noConfusion

end KernelFront.Inference
