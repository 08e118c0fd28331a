import KernelFront.Proofs.Inference.Outcomes
import KernelFront.Proofs.Inference.Settled

/-! # Rules keep agreement

Each rule of inference builds an expression from visited parts. If the parts are settled, so is what
the rule builds: wherever a place asks for a type, the rule has converted the part that stands
there, or has seen that it already has the type.
-/

namespace KernelFront.Inference

variable {index : Ty} {table : SymbolTable} {span : Span}

/-! ## Operators and displays -/

theorem settled_constantOf (value : Constant) (ty : Ty) (span : Span) :
    Settled index table (constantOf value ty span).nodes := by
  simp only [constantOf, Expr.nodes, settled_cons, settled_nil]
  exact ⟨⟨trivial, trivial⟩, trivial⟩

theorem settled_typeBinOp {left right result : Expr} {op : BinOp}
    (hparts : Settled index table (left.nodes ++ right.nodes))
    (hrule : typeBinOp span left op right table = .ok result) :
    Settled index table result.nodes := by
  simp only [typeBinOp, bind_eq_ok, pure_eq_ok] at hrule
  obtain ⟨_, _, _, _, ty, _, rfl⟩ := hrule
  obtain ⟨hleft, hright⟩ := settled_append.mp hparts
  simp only [Expr.nodes, settled_cons, settled_append]
  refine ⟨⟨trivial, ty, rfl, ?_, ?_⟩, settled_convert hleft ty, settled_convert hright ty⟩
  · exact settledType?_convert hleft ty
  · exact settledType?_convert hright ty

theorem settled_typeBoolOp {values : List Expr} (op : BoolOp)
    (hparts : Settled index table (Expr.nodesAll values)) :
    Settled index table (typeBoolOp span op values table).nodes := by
  simp only [typeBoolOp, Expr.nodes, settled_cons]
  exact ⟨⟨trivial, settledType?_convertAll hparts .bool⟩, settled_convertAll hparts .bool⟩

theorem settled_typeUnaryOp {op : UnaryOp} {operand result : Expr}
    (hparts : Settled index table operand.nodes)
    (hrule : typeUnaryOp span op operand table = .ok result) :
    Settled index table result.nodes := by
  cases unaryOutcome_of_ok hrule with
  | negation =>
      simp only [Expr.nodes, settled_cons]
      refine ⟨⟨trivial, fun _ => ?_⟩, settled_convert hparts .bool⟩
      exact settledType?_convert hparts .bool
  | other hop =>
      simp only [Expr.nodes, settled_cons]
      exact ⟨⟨trivial, fun hnot => absurd hnot hop⟩, hparts⟩

theorem settled_typeCompare {left right result : Expr} {op : CmpOp}
    (hparts : Settled index table (left.nodes ++ right.nodes))
    (hrule : typeCompare span left op right table = .ok result) :
    Settled index table result.nodes := by
  obtain ⟨hleft, hright⟩ := settled_append.mp hparts
  cases compareOutcome_of_ok hrule with
  | @same ty hleftTy hrightTy =>
      simp only [Expr.nodes, Expr.nodesAll, List.append_nil, settled_cons]
      refine ⟨⟨trivial, ty, ?_, List.forall_mem_singleton.mpr ?_⟩, hparts⟩
      · rw [settledType?_eq hleft.placed, hleftTy]
      · rw [settledType?_eq hright.placed, hrightTy]
  | @joined _ _ ty =>
      simp only [Expr.nodes, Expr.nodesAll, List.append_nil, settled_cons, settled_append]
      refine ⟨⟨trivial, ty, ?_, List.forall_mem_singleton.mpr ?_⟩, settled_convert hleft ty,
        settled_convert hright ty⟩
      · exact settledType?_convert hleft ty
      · exact settledType?_convert hright ty

theorem settled_typeDict {keys values : List Expr}
    (hparts : Settled index table (Expr.nodesAll keys ++ Expr.nodesAll values)) :
    Settled index table (typeDict span keys values table).nodes := by
  obtain ⟨hkeys, hvalues⟩ := settled_append.mp hparts
  simp only [typeDict, Expr.nodes, settled_cons, settled_append]
  refine ⟨⟨trivial, List.forall_mem_append.mpr ⟨?_, ?_⟩⟩, settled_convertAll hkeys .object,
    settled_convertAll hvalues .object⟩
  · exact settledType?_convertAll hkeys .object
  · exact settledType?_convertAll hvalues .object

theorem settled_typeIndex {value result : Expr} (hparts : Settled index table value.nodes)
    (hrule : typeIndex span value table = .ok result) : Settled index table result.nodes := by
  obtain ⟨ty, -, rfl⟩ := exists_typeIndex hrule
  simp only [Expr.nodes, settled_cons]
  exact ⟨⟨trivial, trivial⟩, hparts⟩

/-! ## Attributes -/

theorem settled_typeAttribute {setting : Setting} {value result : Expr} {attr : String}
    {access : Access} (hparts : Settled index table value.nodes)
    (hrule : typeAttribute setting span value attr access table = .ok result) :
    Settled index table result.nodes := by
  cases attributeOutcome_of_ok hrule with
  | known | metadata =>
      simp only [Expr.nodes, settled_cons]
      exact ⟨⟨trivial, trivial⟩, hparts⟩
  | dynamic =>
      simp only [Host.Function.call, Expr.nodes, Expr.nodesAll, List.append_nil, settled_cons,
        settled_append]
      refine ⟨⟨trivial, ?_⟩, settled_convert hparts .object, settled_constantOf _ _ span⟩
      simp only [Expr.Agrees, List.map_cons, settledType?_convert hparts .object]
      rfl

/-! ## Subscripts -/

theorem settled_axes {selector : Expr} {dims : List Expr}
    (hselector : Settled index table selector.nodes) (haxes : Axes selector dims) :
    Settled index table (Expr.nodesAll dims) := by
  intro node hnode
  rcases haxes.mem_nodes hnode with hmem | ⟨span, rfl⟩
  · exact hselector node hmem
  · exact ⟨trivial, trivial⟩

theorem settled_typeSubscript {value selector result : Expr} {access : Access}
    (hparts : Settled index table (value.nodes ++ selector.nodes))
    (hrule : typeSubscript span value selector access table = .ok result) :
    Settled index table result.nodes := by
  obtain ⟨hvalue, hselector⟩ := settled_append.mp hparts
  have hhost {selector : Expr} (hselector : Settled index table selector.nodes) :
      Settled index table (hostSubscript span value selector access table).nodes := by
    simp only [hostSubscript, Expr.nodes, settled_cons, settled_append]
    exact ⟨⟨trivial, trivial⟩, settled_convert hvalue .object, hselector⟩
  have hcombine {dims : List Expr} {place : Span} (haxes : Axes selector dims) :
      Settled index table (Expr.extSlice (.typed place .object) dims).nodes := by
    simp only [Expr.nodes, settled_cons]
    exact ⟨⟨trivial, trivial⟩, settled_axes hselector haxes⟩
  cases subscriptOutcome_of_ok hrule with
  | host => exact hhost hselector
  | hostAxes _ haxes => exact hhost (hcombine haxes)
  | selection _ haxes =>
      exact settled_cons.mpr ⟨⟨trivial, trivial⟩, settled_append.mpr ⟨hvalue, hcombine haxes⟩⟩
  | pointed _ hindex | counted _ hindex =>
      subst hindex
      simp only [Expr.nodes, settled_cons, settled_append]
      exact ⟨⟨trivial, trivial⟩, hvalue, (settled_cons.mp hselector).2⟩
  | object =>
      simp only [Expr.nodes, settled_cons]
      exact ⟨⟨trivial, trivial⟩, hparts⟩

end KernelFront.Inference
