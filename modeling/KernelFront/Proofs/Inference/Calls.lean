import KernelFront.Proofs.Inference.Rules

/-! # Calls keep agreement

A call becomes a direct call, whose arguments are converted to the types of the parameters one by
one, or a call through the host, all of whose parts are boxed, or what a builtin stands for. Asking
the surroundings how a function is called leaves the scope as it is.
-/

namespace KernelFront.Inference

variable {index : Ty} {table : SymbolTable} {span : Span}

theorem settledType?_convertEach {params : List Ty} {args : List Expr}
    (hlength : params.length = args.length) (hargs : Settled index table (Expr.nodesAll args)) :
    (List.zipWith (Expr.convert table) params args).map (settledType? table) = params.map some := by
  induction args generalizing params with
  | nil =>
      cases params with
      | nil => rfl
      | cons => cases hlength
  | cons arg args ih =>
      cases params with
      | nil => rfl
      | cons param params =>
          obtain ⟨harg, hargs⟩ := settled_append.mp hargs
          simp only [List.zipWith_cons_cons, List.map_cons, settledType?_convert harg,
            ih (Nat.succ.inj hlength) hargs]

theorem settled_convertEach {params : List Ty} {args : List Expr}
    (hargs : Settled index table (Expr.nodesAll args)) :
    Settled index table (Expr.nodesAll (List.zipWith (Expr.convert table) params args)) := by
  refine settled_nodesAll.mpr fun converted hconverted => ?_
  obtain ⟨param, -, arg, harg, rfl⟩ := exists_of_mem_convertEach hconverted
  exact settled_convert (settled_nodesAll.mp hargs arg harg) param

theorem settled_directCall {entry : EntryPoint} {args : List Expr} {result : Expr}
    (hparts : Settled index table (Expr.nodesAll args))
    (hrule : directCall span entry args table = .ok result) : Settled index table result.nodes := by
  obtain ⟨hlength, rfl⟩ := exists_directCall hrule
  simp only [Expr.nodes, settled_cons]
  exact ⟨⟨trivial, settledType?_convertEach hlength hparts⟩, settled_convertEach hparts⟩

/-- The parts of a call. -/
abbrev callNodes (func : Expr) (args : List Expr) (keywords : List (String × Expr)) : List Expr :=
  func.nodes ++ Expr.nodesAll args ++ Expr.nodesAll (keywords.map Prod.snd)

variable {func : Expr} {args : List Expr} {keywords : List (String × Expr)}

theorem settled_args (hparts : Settled index table (callNodes func args keywords)) :
    Settled index table (Expr.nodesAll args) := by
  simp only [callNodes, settled_append] at hparts
  exact hparts.1.2

/-- A call through the host boxes all its parts, the values of keyword arguments in their order. -/
theorem exists_hostCall (span : Span) (func : Expr) (args : List Expr)
    (keywords : List (String × Expr)) (ty : Ty) (table : SymbolTable) :
    ∃ boxed, hostCall span func args keywords ty table =
      .objectCall (.typed span ty) (func.convert table .object)
        (args.map (Expr.convert table .object)) boxed ∧
      boxed.map Prod.snd = (keywords.map Prod.snd).map (Expr.convert table .object) := by
  refine ⟨_, rfl, ?_⟩
  rw [List.map_map, List.map_map]
  rfl

theorem settled_hostCall (hparts : Settled index table (callNodes func args keywords)) (ty : Ty) :
    Settled index table (hostCall span func args keywords ty table).nodes := by
  simp only [callNodes, settled_append] at hparts
  obtain ⟨⟨hfunc, hargs⟩, hkeywords⟩ := hparts
  obtain ⟨boxed, hcall, hboxed⟩ := exists_hostCall span func args keywords ty table
  rw [hcall]
  simp only [Expr.nodes, Expr.nodesKeywords_eq, hboxed, settled_cons, settled_append]
  refine ⟨⟨trivial, ?_⟩, ⟨settled_convert hfunc .object, settled_convertAll hargs .object⟩,
    settled_convertAll hkeywords .object⟩
  simp only [Expr.Agrees, hboxed]
  refine List.forall_mem_cons.mpr ⟨settledType?_convert hfunc .object, ?_⟩
  refine List.forall_mem_append.mpr ⟨settledType?_convertAll hargs .object, ?_⟩
  exact settledType?_convertAll hkeywords .object

/-! ## Builtins -/

variable {setting : Setting}

theorem settled_countedRange {start stop step : Expr}
    (hstart : Settled setting.options.indexType table start.nodes)
    (hstop : Settled setting.options.indexType table stop.nodes)
    (hstep : Settled setting.options.indexType table step.nodes) :
    Settled setting.options.indexType table
      (countedRange setting span start stop step table).nodes := by
  simp only [countedRange, Expr.nodes, settled_cons, settled_append]
  refine ⟨⟨trivial, ?_⟩, ⟨settled_convert hstart _, settled_convert hstop _⟩,
    settled_convert hstep _⟩
  simp only [Expr.Agrees, List.forall_mem_cons]
  exact ⟨settledType?_convert hstart _, settledType?_convert hstop _, settledType?_convert hstep _,
    List.forall_mem_nil _⟩

theorem settled_builtin {result : Expr}
    (hparts : Settled setting.options.indexType table (Expr.nodesAll args))
    (hbuiltin : BuiltinOutcome setting span table args result) :
    Settled setting.options.indexType table result.nodes := by
  have hargs := settled_nodesAll.mp hparts
  have hconstant (value : Int) : Settled setting.options.indexType table
      (indexConstant setting value span).nodes := settled_constantOf _ _ span
  cases hbuiltin with
  | upTo => exact settled_countedRange (hconstant 0) (hargs _ (by simp)) (hconstant 1)
  | fromTo => exact settled_countedRange (hargs _ (by simp)) (hargs _ (by simp)) (hconstant 1)
  | stepping =>
      exact settled_countedRange (hargs _ (by simp)) (hargs _ (by simp)) (hargs _ (by simp))
  | length =>
      simp only [Expr.nodes, settled_cons, settled_append]
      exact ⟨⟨trivial, trivial⟩, ⟨⟨trivial, trivial⟩, hargs _ (by simp)⟩, hconstant 0⟩
  | int | float => exact settled_convert (hargs _ (by simp)) _

/-! ## All calls -/

/-- A call leaves the scope as it is and becomes an expression whose parts have the types that they
are asked for. -/
theorem visited_typeCall {before after : Scope} {result : Expr}
    (hcall : Pass.Reaches (typeCall setting span func args keywords) before result after) :
    after = before ∧
      (Settled setting.options.indexType before.symbols (callNodes func args keywords) →
        Settled setting.options.indexType before.symbols result.nodes) := by
  obtain ⟨hsame, houtcome⟩ := callOutcome_of_reaches hcall
  refine ⟨hsame, fun hparts => ?_⟩
  cases houtcome with
  | builtin hbuiltin => exact settled_builtin (settled_args hparts) hbuiltin
  | direct hrule => exact settled_directCall (settled_args hparts) hrule
  | host => exact settled_hostCall hparts _

end KernelFront.Inference
