import KernelFront.Proofs.Inference.Returns
import KernelFront.Proofs.Source

/-! # How often a call is run

Inference turns a call of the source into a call through the host, into a direct call or, for a
builtin, into no call at all, and leaves the place of the call on what it becomes. Two rewritings
copy expressions with the calls in them: an augmented assignment reads its target and stores to it,
and an array of fixed size that is unpacked is evaluated once for each of its elements. Nothing else
runs a call twice.
-/

namespace KernelFront

namespace Expr

/-- Whether an expression is a call of the source at one of these places. -/
def isCallAt (places : Span → Bool) : Expr → Bool
  | .call note _ _ _ => places note.span
  | _ => false

/-- Whether an expression runs a call at one of these places, through the host or directly. The host
function that reads an attribute by its name is called for no call of the source. -/
def isRunAt (places : Span → Bool) : Expr → Bool
  | .objectCall note _ _ _ => places note.span
  | .nativeCall note symbol _ _ =>
      decide (symbol ≠ Host.Function.getAttrString.symbol) && places note.span
  | _ => false

/-- Whether an expression is a tuple or a list display. -/
def isDisplay : Expr → Bool
  | .tuple _ _ _ | .list _ _ _ => true
  | _ => false

end Expr

/-- The calls of the source at these places among some expressions. -/
def calls (places : Span → Bool) (nodes : List Expr) : Nat := nodes.countP (Expr.isCallAt places)

/-- How often calls at these places are run by some expressions. -/
def runs (places : Span → Bool) (nodes : List Expr) : Nat := nodes.countP (Expr.isRunAt places)

/-- The calls at these places that a statement runs once more than they are written, for each time
that it copies them: those in the target of an augmented assignment, and those in a value that is
unpacked and is no display, which is copied to every target but one. -/
def Stmt.repeats (places : Span → Bool) : Stmt → Nat
  | .augAssign _ target _ _ => calls places target.nodes
  | .assign _ targets value =>
      if value.isDisplay then 0
      else ((unpackedTargets targets).length - 1) * calls places value.nodes
  | _ => 0

/-- The calls at these places that some statements run once more than they are written. -/
def Stmt.repeatsAll (places : Span → Bool) : List Stmt → Nat
  | [] => 0
  | stmt :: stmts => stmt.repeats places + repeatsAll places stmts

/-- The expressions of a body at every depth. -/
def Stmt.nodesBody (body : List Stmt) : List Expr := (nestedBody body).flatMap nodes

@[simp] theorem Stmt.nodesBody_nil : nodesBody [] = [] := rfl

@[simp] theorem Stmt.nodesBody_cons (stmt : Stmt) (body : List Stmt) :
    nodesBody (stmt :: body) = stmt.nested.flatMap nodes ++ nodesBody body := by
  simp only [nodesBody, nestedBody, List.flatMap_append]

@[simp] theorem Stmt.nodesBody_append (first second : List Stmt) :
    nodesBody (first ++ second) = nodesBody first ++ nodesBody second := by
  simp only [nodesBody, nestedBody_append, List.flatMap_append]

section Counting

variable {places : Span → Bool} {first second : List Expr} {table : SymbolTable}

@[simp] theorem calls_append :
    calls places (first ++ second) = calls places first + calls places second :=
  List.countP_append

@[simp] theorem runs_append :
    runs places (first ++ second) = runs places first + runs places second :=
  List.countP_append

@[simp] theorem calls_nil : calls places [] = 0 := List.countP_nil

@[simp] theorem runs_nil : runs places [] = 0 := List.countP_nil

theorem calls_cons {e : Expr} :
    calls places (e :: first) = calls places first + if e.isCallAt places then 1 else 0 :=
  List.countP_cons

theorem calls_call {note : Note} {func : Expr} {args : List Expr}
    {keywords : List (String × Expr)} :
    calls places (Expr.call note func args keywords).nodes =
      calls places (func.nodes ++ Expr.nodesAll args ++ Expr.nodesAll (keywords.map Prod.snd)) +
        if places note.span then 1 else 0 := by
  rw [← Expr.nodesKeywords_eq]
  exact calls_cons

theorem runs_cons {e : Expr} :
    runs places (e :: first) = runs places first + if e.isRunAt places then 1 else 0 :=
  List.countP_cons

/-- The calls of an expression that is no call itself are those of its parts. -/
theorem calls_below {e : Expr} (hself : e.isCallAt places = false) :
    calls places e.nodes = calls places (Expr.nodesAll e.children) := by
  rw [Expr.nodes_eq, calls_cons, hself]
  rfl

/-- An expression that runs no call itself runs those of its parts. -/
theorem runs_below {e : Expr} (hself : e.isRunAt places = false) :
    runs places e.nodes = runs places (Expr.nodesAll e.children) := by
  rw [Expr.nodes_eq, runs_cons, hself]
  rfl

/-- What an expression runs besides its parts, it runs at its own place. -/
theorem runs_le_below {e : Expr} {span : Span} (hspan : e.span = span) :
    runs places e.nodes ≤
      runs places (Expr.nodesAll e.children) + if places span then 1 else 0 := by
  subst hspan
  have hself : e.isRunAt places → places e.span := by
    cases e with
    | objectCall => exact id
    | nativeCall => exact fun hrun => (Bool.and_eq_true_iff.mp hrun).2
    | _ => exact nofun
  rw [Expr.nodes_eq, runs_cons]
  refine Nat.add_le_add_left ?_ _
  split
  next hrun => exact Nat.le_of_eq (if_pos (hself hrun)).symm
  next => exact Nat.zero_le _

@[simp] theorem runs_convert {e : Expr} {ty : Ty} :
    runs places (e.convert table ty).nodes = runs places e.nodes := by
  unfold Expr.convert
  split
  · rfl
  · simp [Expr.nodes, runs_cons, Expr.isRunAt]

@[simp] theorem runs_convertAll {es : List Expr} {ty : Ty} :
    runs places (Expr.nodesAll (es.map (Expr.convert table ty))) =
      runs places (Expr.nodesAll es) := by
  induction es with
  | nil => rfl
  | cons e es ih => simp [Expr.nodesAll, ih]

theorem runs_convertEach {params : List Ty} {args : List Expr} :
    runs places (Expr.nodesAll (List.zipWith (Expr.convert table) params args)) ≤
      runs places (Expr.nodesAll args) := by
  induction args generalizing params with
  | nil => simp [Expr.nodesAll]
  | cons arg args ih =>
      cases params with
      | nil => simp [Expr.nodesAll]
      | cons param params =>
          simpa [Expr.nodesAll] using ih

end Counting

namespace Inference

variable {setting : Setting} {places : Span → Bool} {table : SymbolTable} {span : Span}

/-! ## Rules run no call twice -/

@[simp] theorem runs_constantOf (value : Constant) (ty : Ty) (span : Span) :
    runs places (constantOf value ty span).nodes = 0 := by
  simp [constantOf, Expr.nodes, runs_cons, Expr.isRunAt]

theorem runs_typeBinOp {left right result : Expr} {op : BinOp}
    (hrule : typeBinOp span left op right table = .ok result) :
    runs places result.nodes = runs places left.nodes + runs places right.nodes := by
  simp only [typeBinOp, bind_eq_ok, pure_eq_ok] at hrule
  obtain ⟨_, _, _, _, ty, _, rfl⟩ := hrule
  simp [Expr.nodes, runs_cons, Expr.isRunAt]

theorem runs_typeUnaryOp {op : UnaryOp} {operand result : Expr}
    (hrule : typeUnaryOp span op operand table = .ok result) :
    runs places result.nodes = runs places operand.nodes := by
  cases unaryOutcome_of_ok hrule with
  | negation | other => simp [Expr.nodes, runs_cons, Expr.isRunAt]

theorem runs_typeCompare {left right result : Expr} {op : CmpOp}
    (hrule : typeCompare span left op right table = .ok result) :
    runs places result.nodes = runs places left.nodes + runs places right.nodes := by
  cases compareOutcome_of_ok hrule with
  | same | joined => simp [Expr.nodes, Expr.nodesAll, runs_cons, Expr.isRunAt]

theorem runs_typeIndex {value result : Expr} (hrule : typeIndex span value table = .ok result) :
    runs places result.nodes = runs places value.nodes := by
  obtain ⟨ty, -, rfl⟩ := exists_typeIndex hrule
  simp [Expr.nodes, runs_cons, Expr.isRunAt]

theorem runs_typeAttribute {value result : Expr} {attr : String} {access : Access}
    (hrule : typeAttribute setting span value attr access table = .ok result) :
    runs places result.nodes = runs places value.nodes := by
  cases attributeOutcome_of_ok hrule with
  | known | metadata => simp [Expr.nodes, runs_cons, Expr.isRunAt]
  | dynamic =>
      simp [Host.Function.call, literal, Expr.nodes, Expr.nodesAll, runs_cons, Expr.isRunAt]

/-! ## Subscripts -/

theorem runs_selectors {selector : Expr} {selectors : List Expr}
    (hselectors : selectors? selector = some selectors) :
    runs places (Expr.nodesAll selectors) = runs places selector.nodes := by
  unfold selectors? at hselectors
  split at hselectors
  all_goals cases hselectors
  all_goals simp [Expr.nodes, Expr.nodesAll, runs_cons, Expr.isRunAt]

@[simp] theorem runs_fullSlices (count : Nat) (span : Span) :
    runs places (Expr.nodesAll (List.replicate count (fullSlice span))) = 0 := by
  induction count with
  | zero => rfl
  | succ count ih =>
      rw [List.replicate_succ, Expr.nodesAll, runs_append, ih]
      rfl

theorem runs_expandEllipses (fill : Nat) (kinds : List SelectorKind) (selectors : List Expr) :
    runs places (Expr.nodesAll (expandEllipses fill (kinds.zip selectors))) ≤
      runs places (Expr.nodesAll selectors) := by
  induction selectors generalizing kinds fill with
  | nil => simp [expandEllipses, Expr.nodesAll]
  | cons e selectors ih =>
      cases kinds with
      | nil => simp [expandEllipses, Expr.nodesAll]
      | cons kind kinds =>
          rw [List.zip_cons_cons]
          cases kind with
          | ellipsis =>
              simp only [expandEllipses, Expr.nodesAll_append, Expr.nodesAll, runs_append,
                runs_fullSlices, Nat.zero_add]
              exact Nat.le_trans (ih 1 kinds) (Nat.le_add_left _ _)
          | _ =>
              simp only [expandEllipses, Expr.nodesAll, runs_append]
              exact Nat.add_le_add_left (ih fill kinds) _

theorem runs_axes {selector : Expr} {dims : List Expr} (haxes : Axes selector dims) :
    runs places (Expr.nodesAll dims) ≤ runs places selector.nodes := by
  obtain ⟨selectors, kinds, fill, missing, span, hselectors, rfl⟩ := haxes
  rw [Expr.nodesAll_append, runs_append, runs_fullSlices, Nat.add_zero,
    ← runs_selectors hselectors]
  exact runs_expandEllipses fill kinds selectors

theorem runs_le_typeSubscript {value selector result : Expr} {access : Access}
    (hrule : typeSubscript span value selector access table = .ok result) :
    runs places result.nodes ≤ runs places value.nodes + runs places selector.nodes := by
  have hsubscript (ty : Ty) (value selector : Expr) :
      runs places (Expr.subscript (.typed span ty) value selector access).nodes =
        runs places value.nodes + runs places selector.nodes := by
    simp [Expr.nodes, runs_cons, Expr.isRunAt]
  have hhost (selector : Expr) :
      runs places (hostSubscript span value selector access table).nodes =
        runs places value.nodes + runs places selector.nodes := by
    rw [hostSubscript, hsubscript, runs_convert]
  have hcombine {place : Span} {dims : List Expr} (haxes : Axes selector dims) :
      runs places (Expr.extSlice (.typed place .object) dims).nodes ≤ runs places selector.nodes :=
    Nat.le_trans (Nat.le_of_eq (runs_below rfl)) (runs_axes haxes)
  cases subscriptOutcome_of_ok hrule with
  | host => exact Nat.le_of_eq (hhost selector)
  | hostAxes _ haxes =>
      rw [hhost]
      exact Nat.add_le_add_left (hcombine haxes) _
  | selection _ haxes =>
      rw [hsubscript]
      exact Nat.add_le_add_left (hcombine haxes) _
  | pointed _ hindex | counted _ hindex =>
      subst hindex
      rw [hsubscript]
      simp [Expr.nodes, runs_cons, Expr.isRunAt]
  | object => exact Nat.le_of_eq (hsubscript .object value selector)

/-! ## Calls -/

section Calls

variable {func : Expr} {args : List Expr} {keywords : List (String × Expr)} {before after : Scope}
  {result : Expr}

/-- What a call at this place may run: itself, and what its parts run. -/
def CallsOnce (places : Span → Bool) (span : Span) (nodes : List Expr) (result : Expr) : Prop :=
  runs places result.nodes ≤ runs places nodes + if places span then 1 else 0

theorem callsOnce_hostCall (ty : Ty) :
    CallsOnce places span (callNodes func args keywords)
      (hostCall span func args keywords ty table) := by
  obtain ⟨boxed, hcall, hboxed⟩ := exists_hostCall span func args keywords ty table
  rw [hcall]
  refine Nat.le_trans (runs_le_below rfl) (Nat.add_le_add_right ?_ _)
  simp only [Expr.children, callNodes, Expr.nodesAll, Expr.nodesAll_append, hboxed, runs_append,
    runs_convert, runs_convertAll, Nat.add_assoc, Nat.le_refl]

theorem callsOnce_directCall {entry : EntryPoint}
    (hrule : directCall span entry args table = .ok result) :
    CallsOnce places span (callNodes func args keywords) result := by
  obtain ⟨-, rfl⟩ := exists_directCall hrule
  have hargs : runs places (Expr.nodesAll
      (List.zipWith (Expr.convert table) entry.signature.args args)) ≤ _ := runs_convertEach
  refine Nat.le_trans (runs_le_below rfl) (Nat.add_le_add_right ?_ _)
  simp only [Expr.children, callNodes, runs_append]
  omega

theorem callsOnce_of_part (hresult : runs places result.nodes ≤ runs places (Expr.nodesAll args)) :
    CallsOnce places span (callNodes func args keywords) result := by
  simp only [CallsOnce, callNodes, runs_append]
  omega

theorem callsOnce_builtin (hbuiltin : BuiltinOutcome setting span table args result) :
    CallsOnce places span (callNodes func args keywords) result := by
  have hrange (start stop step : Expr) :
      runs places (countedRange setting span start stop step table).nodes =
        runs places start.nodes + runs places stop.nodes + runs places step.nodes := by
    simp [countedRange, Expr.nodes, runs_cons, Expr.isRunAt, Nat.add_assoc]
  apply callsOnce_of_part
  cases hbuiltin with
  | upTo | fromTo | stepping =>
      rw [hrange]
      simp [indexConstant, Expr.nodesAll, Nat.add_assoc]
  | length => simp [indexConstant, Expr.nodes, Expr.nodesAll, runs_cons, Expr.isRunAt]
  | int | float => simp [Expr.nodesAll]

/-- A call runs itself at most once. -/
theorem callsOnce_typeCall
    (hcall : Pass.Reaches (typeCall setting span func args keywords) before result after) :
    CallsOnce places span (callNodes func args keywords) result := by
  obtain ⟨-, houtcome⟩ := callOutcome_of_reaches hcall
  cases houtcome with
  | builtin hbuiltin => exact callsOnce_builtin hbuiltin
  | direct hrule => exact callsOnce_directCall hrule
  | host => exact callsOnce_hostCall _

end Calls

/-! ## Expressions -/

theorem runs_visitName {name : String} {access : Access} {before after : Scope} {result : Expr}
    (hreach : Pass.Reaches (visitName setting name access span) before result after) :
    runs places result.nodes = 0 := by
  simp only [visitName, pure_bind, Pass.reaches_bind, Pass.reaches_get] at hreach
  obtain ⟨_, start, ⟨rfl, rfl⟩, hreach⟩ := hreach
  split at hreach
  · split at hreach
    · simp only [Pass.reaches_bind, not_reaches_refuse, false_and, exists_false] at hreach
    · obtain ⟨rfl, rfl⟩ := Pass.reaches_pure.mp hreach
      rfl
  · simp only [Pass.reaches_bind, Pass.reaches_pure] at hreach
    obtain ⟨id, _, _, rfl, rfl⟩ := hreach
    rfl

mutual

/-- A visited expression runs each of its calls at most once. -/
theorem runs_inferExpr {e result : Expr} {before after : Scope}
    (hreach : Pass.Reaches (inferExpr setting e) before result after) :
    runs places result.nodes ≤ calls places e.nodes := by
  cases e with
  | name note id access =>
      simp only [inferExpr] at hreach
      rw [runs_visitName hreach]
      exact Nat.zero_le _
  | const note value =>
      simp only [inferExpr, Pass.reaches_pure] at hreach
      obtain ⟨rfl, rfl⟩ := hreach
      simp [literal]
  | ellipsis note =>
      simp only [inferExpr, Pass.reaches_pure] at hreach
      obtain ⟨rfl, rfl⟩ := hreach
      simp [Expr.nodes, runs_cons, Expr.isRunAt]
  | binOp note left op right =>
      simp only [inferExpr, Pass.reaches_bind, reaches_apply] at hreach
      obtain ⟨left', middle, hleft, right', last, hright, hrule, rfl⟩ := hreach
      rw [runs_typeBinOp hrule, calls_below rfl]
      simpa [Expr.children, Expr.nodesAll] using
        Nat.add_le_add (runs_inferExpr hleft) (runs_inferExpr hright)
  | boolOp note op values =>
      obtain ⟨values', hvalues, rfl⟩ := reaches_boolOp hreach
      rw [typeBoolOp, runs_below rfl, calls_below rfl]
      simpa only [Expr.children, runs_convertAll] using runs_inferAll hvalues
  | unaryOp note op operand =>
      simp only [inferExpr, Pass.reaches_bind, reaches_apply] at hreach
      obtain ⟨operand', middle, hoperand, hrule, rfl⟩ := hreach
      rw [runs_typeUnaryOp hrule, calls_below rfl]
      simpa [Expr.children, Expr.nodesAll] using runs_inferExpr hoperand
  | compare note left ops comparators =>
      obtain ⟨op, left', middle, right', hleft, hright, hrule⟩ := reaches_compare hreach
      rw [runs_typeCompare hrule, calls_below rfl]
      simpa [Expr.children, Expr.nodesAll] using
        Nat.add_le_add (runs_inferExpr hleft) (runs_inferAll hright)
  | call note func args keywords =>
      simp only [inferExpr, Pass.reaches_bind] at hreach
      obtain ⟨func', first, hfunc, args', second, hargs, keywords', third, hkeywords, hcall⟩ :=
        hreach
      have hresult : CallsOnce places _ _ _ := callsOnce_typeCall hcall
      have hfunc : runs places _ ≤ _ := runs_inferExpr hfunc
      have hargs : runs places _ ≤ _ := runs_inferAll hargs
      have hkeywords : runs places _ ≤ _ := runs_inferKeywords hkeywords
      rw [calls_call]
      simp only [CallsOnce, callNodes, runs_append, calls_append] at hresult ⊢
      omega
  | «attribute» note value attr access =>
      simp only [inferExpr, Pass.reaches_bind, reaches_apply] at hreach
      obtain ⟨value', middle, hvalue, hrule, rfl⟩ := hreach
      rw [runs_typeAttribute hrule, calls_below rfl]
      simpa [Expr.children, Expr.nodesAll] using runs_inferExpr hvalue
  | subscript note value selector access =>
      simp only [inferExpr, Pass.reaches_bind, reaches_apply] at hreach
      obtain ⟨value', middle, hvalue, selector', last, hselector, hrule, rfl⟩ := hreach
      rw [calls_below rfl]
      simp only [Expr.children, Expr.nodesAll, List.append_nil, calls_append]
      exact Nat.le_trans (runs_le_typeSubscript hrule)
        (Nat.add_le_add (runs_inferExpr hvalue) (runs_inferExpr hselector))
  | index note value =>
      simp only [inferExpr, Pass.reaches_bind, reaches_apply] at hreach
      obtain ⟨value', middle, hvalue, hrule, rfl⟩ := hreach
      rw [runs_typeIndex hrule, calls_below rfl]
      simpa [Expr.children, Expr.nodesAll] using runs_inferExpr hvalue
  | slice note lower upper step =>
      simp only [inferExpr, Pass.reaches_bind, Pass.reaches_pure] at hreach
      obtain ⟨lower', first, hlower, upper', second, hupper, step', third, hstep, rfl, rfl⟩ :=
        hreach
      rw [runs_below rfl, calls_below rfl]
      simp only [Expr.children, Expr.nodesAll_append, runs_append, calls_append]
      exact Nat.add_le_add (Nat.add_le_add (runs_inferPart hlower) (runs_inferPart hupper))
        (runs_inferPart hstep)
  | extSlice note dims =>
      simp only [inferExpr, Pass.reaches_bind, Pass.reaches_pure] at hreach
      obtain ⟨dims', middle, hdims, rfl, rfl⟩ := hreach
      rw [runs_below rfl, calls_below rfl]
      exact runs_inferAll hdims
  | tuple note elts access =>
      simp only [inferExpr, Pass.reaches_bind, reaches_apply, Except.ok.injEq] at hreach
      obtain ⟨elts', middle, helts, rfl, rfl⟩ := hreach
      rw [typeTuple, runs_below rfl, calls_below rfl]
      exact runs_inferAll helts
  | list note elts access =>
      simp only [inferExpr, Pass.reaches_bind, Pass.reaches_pure] at hreach
      obtain ⟨elts', middle, helts, rfl, rfl⟩ := hreach
      rw [typeList, runs_below rfl, calls_below rfl]
      exact runs_inferAll helts
  | dict note keys values =>
      simp only [inferExpr, Pass.reaches_bind, reaches_apply, Except.ok.injEq] at hreach
      obtain ⟨keys', middle, hkeys, values', last, hvalues, rfl, rfl⟩ := hreach
      rw [typeDict, runs_below rfl, calls_below rfl]
      simp only [Expr.children, Expr.nodesAll_append, runs_append, calls_append, runs_convertAll]
      exact Nat.add_le_add (runs_inferAll hkeys) (runs_inferAll hvalues)
  | _ => simp only [inferExpr, not_reaches_refuse] at hreach
termination_by structural e

theorem runs_inferAll {es results : List Expr} {before after : Scope}
    (hreach : Pass.Reaches (inferAll setting es) before results after) :
    runs places (Expr.nodesAll results) ≤ calls places (Expr.nodesAll es) := by
  cases es with
  | nil =>
      simp only [inferAll, Pass.reaches_pure] at hreach
      obtain ⟨rfl, rfl⟩ := hreach
      exact Nat.le_refl 0
  | cons e es =>
      simp only [inferAll, Pass.reaches_bind, Pass.reaches_pure] at hreach
      obtain ⟨e', middle, he, es', last, hes, rfl, rfl⟩ := hreach
      simp only [Expr.nodesAll, runs_append, calls_append]
      exact Nat.add_le_add (runs_inferExpr he) (runs_inferAll hes)
termination_by structural es

theorem runs_inferKeywords {keywords results : List (String × Expr)} {before after : Scope}
    (hreach : Pass.Reaches (inferKeywords setting keywords) before results after) :
    runs places (Expr.nodesAll (results.map Prod.snd)) ≤
      calls places (Expr.nodesAll (keywords.map Prod.snd)) := by
  cases keywords with
  | nil =>
      simp only [inferKeywords, Pass.reaches_pure] at hreach
      obtain ⟨rfl, rfl⟩ := hreach
      exact Nat.le_refl 0
  | cons keyword keywords =>
      obtain ⟨name, e⟩ := keyword
      simp only [inferKeywords, Pass.reaches_bind, Pass.reaches_pure] at hreach
      obtain ⟨e', middle, he, keywords', last, hkeywords, rfl, rfl⟩ := hreach
      simp only [List.map_cons, Expr.nodesAll, runs_append, calls_append]
      exact Nat.add_le_add (runs_inferExpr he) (runs_inferKeywords hkeywords)
termination_by structural keywords

theorem runs_inferPart {part result : Option Expr} {before after : Scope}
    (hreach : Pass.Reaches (inferPart setting part) before result after) :
    runs places (Expr.nodesAll result.toList) ≤ calls places (Expr.nodesAll part.toList) := by
  cases part with
  | none =>
      simp only [inferPart, Pass.reaches_pure] at hreach
      obtain ⟨rfl, rfl⟩ := hreach
      exact Nat.le_refl 0
  | some e =>
      simp only [inferPart, Pass.reaches_bind, Pass.reaches_pure] at hreach
      obtain ⟨e', middle, he, rfl, rfl⟩ := hreach
      simpa only [Option.toList_some, Expr.nodesAll, List.append_nil] using runs_inferExpr he
termination_by structural part

end

/-! ## Stores -/

theorem calls_withAccess (e : Expr) (access : Access) :
    calls places (e.withAccess access).nodes = calls places e.nodes := by
  rw [Expr.nodes_eq, Expr.nodes_eq e, calls_cons, calls_cons, Expr.children_withAccess]
  cases e <;> rfl

theorem runs_typeStore {target value : Expr} {stmt : Stmt} {before after : Scope}
    (hreach : Pass.Reaches (typeStore target value span) before stmt after) :
    runs places stmt.nodes = runs places target.nodes + runs places value.nodes := by
  cases storeOutcome_of_reaches hreach with
  | fresh | settled => simp [Stmt.nodes, Stmt.exprs, Expr.nodesAll, runs_convert]

theorem runs_storeAll {targets elements : List Expr} {stmts : List Stmt} {before after : Scope}
    (hreach : Pass.Reaches (storeAll setting span targets elements) before stmts after) :
    runs places (Stmt.nodesBody stmts) ≤
      calls places (Expr.nodesAll targets) + runs places (Expr.nodesAll elements) := by
  replace hreach := storeRun_of_reaches hreach
  induction hreach with
  | done => exact Nat.zero_le _
  | @store _ target _ _ _ stmt _ _ _ _ _ htarget hstore _ ih =>
      have htarget : runs places target.nodes ≤ _ := runs_inferExpr htarget
      have hruns : runs places stmt.nodes = _ := runs_typeStore hstore
      obtain ⟨stored, rfl⟩ := assign_of_typeStore hstore
      simp only [Stmt.nodesBody_cons, Stmt.nested, List.flatMap_cons, List.flatMap_nil,
        List.append_nil, runs_append, Expr.nodesAll, calls_append] at hruns ⊢
      omega

theorem runs_literals (items : List Constant) (span : Span) :
    runs places (Expr.nodesAll (items.map fun item => literal item span)) = 0 := by
  induction items with
  | nil => rfl
  | cons item items ih =>
      rw [List.map_cons, Expr.nodesAll, runs_append, ih, literal, runs_constantOf]

theorem runs_copies (elem : Ty) (value : Expr) (positions : List Nat) :
    runs places (Expr.nodesAll (positions.map fun (i : Nat) => .subscript (.typed value.span elem)
      value (indexConstant setting i value.span) .load)) =
        positions.length * runs places value.nodes := by
  induction positions with
  | nil => simp [Expr.nodesAll]
  | cons i positions ih =>
      rw [List.map_cons, Expr.nodesAll, runs_append, ih, runs_below rfl]
      simp [Expr.children, Expr.nodesAll, indexConstant, Nat.succ_mul, Nat.add_comm]

/-- The elements of an array of fixed size run what the array runs, each of them; those of a display
or a constant run it together. -/
theorem runs_unpackedElements {value : Expr} {elements : List Expr} {size : Nat}
    (hsize : unpackedSize value table = .ok size)
    (hrule : unpackedElements setting value table = .ok elements) :
    (∃ elem, value.typeIn? table = some (.carray elem size) ∧
      runs places (Expr.nodesAll elements) = size * runs places value.nodes) ∨
    runs places (Expr.nodesAll elements) ≤ runs places value.nodes := by
  simp only [unpackedElements, bind_eq_ok, typeOf_eq_ok] at hrule
  obtain ⟨ty, hty, hrule⟩ := hrule
  split at hrule
  next elem count =>
    simp only [unpackedSize, bind_eq_ok, typeOf_eq_ok, hty, Option.some.injEq] at hsize
    obtain ⟨_, rfl, hsize⟩ := hsize
    obtain rfl := pure_eq_ok.mp hsize
    obtain rfl := pure_eq_ok.mp hrule
    refine .inl ⟨elem, hty, ?_⟩
    rw [runs_copies, List.length_range]
  next =>
    obtain rfl := pure_eq_ok.mp hrule
    rw [runs_below rfl]
    exact .inr (Nat.le_refl _)
  next =>
    obtain rfl := pure_eq_ok.mp hrule
    rw [runs_below rfl]
    exact .inr (Nat.le_refl _)
  next =>
    split at hrule
    · obtain rfl := pure_eq_ok.mp hrule
      rw [runs_literals]
      exact .inr (Nat.zero_le _)
    · cases hrule

/-- The type of a visited display is that of a tuple or of a list. -/
theorem typeIn?_of_isDisplay {e result : Expr} {before after : Scope} (hdisplay : e.isDisplay)
    (hreach : Pass.Reaches (inferExpr setting e) before result after) (elem : Ty) (size : Nat) :
    result.typeIn? table ≠ some (.carray elem size) := by
  cases e with
  | tuple note elts access =>
      simp only [inferExpr, Pass.reaches_bind, reaches_apply, Except.ok.injEq] at hreach
      obtain ⟨elts', middle, helts, rfl, rfl⟩ := hreach
      simp only [typeTuple, tupleVariable, Expr.typeIn?, Expr.boundVar?, Expr.binding, Expr.note]
      split <;> simp [Variable.constant, Variable.typed]
  | list note elts access =>
      simp only [inferExpr, Pass.reaches_bind, Pass.reaches_pure] at hreach
      obtain ⟨elts', middle, helts, rfl, rfl⟩ := hreach
      simp [typeList, Expr.typeIn?, Expr.boundVar?, Expr.binding, Expr.note, Note.typed,
        Variable.typed]
  | _ => cases hdisplay

/-- What the elements of a value run, if the copies of the value that they are made of run no more
than `extra`. -/
theorem runs_elements {value : Expr} {elements : List Expr} {count extra : Nat}
    (hextra : ∀ elem size, value.typeIn? table = some (.carray elem size) →
      (count - 1) * runs places value.nodes ≤ extra)
    (hsize : unpackedSize value table = .ok count)
    (hrule : unpackedElements setting value table = .ok elements) :
    runs places (Expr.nodesAll elements) ≤ runs places value.nodes + extra := by
  rcases runs_unpackedElements hsize hrule with ⟨elem, hty, hruns⟩ | hruns
  · rw [hruns]
    refine Nat.le_trans ?_ (Nat.add_le_add_left (hextra elem _ hty) _)
    -- Without targets there are no copies, and otherwise one more than there are extra ones.
    cases count with
    | zero => simp
    | succ count => simp [Nat.succ_mul, Nat.add_comm]
  · exact Nat.le_trans hruns (Nat.le_add_right _ _)

theorem calls_unpackedTargets (targets : List Expr) :
    calls places (Expr.nodesAll (Stmt.unpackedTargets targets)) =
      calls places (Expr.nodesAll targets) := by
  unfold Stmt.unpackedTargets
  split
  iterate 2 rw [Expr.nodesAll, Expr.nodesAll, List.append_nil, calls_below rfl, Expr.children]
  rfl

theorem runs_inferAssign {targets : List Expr} {value : Expr} {stmts : List Stmt}
    {before after : Scope} {extra : Nat}
    (hextra : ∀ elem size, value.typeIn? before.symbols = some (.carray elem size) →
      ((Stmt.unpackedTargets targets).length - 1) * runs places value.nodes ≤ extra)
    (hreach : Pass.Reaches (inferAssign setting span targets value) before stmts after) :
    runs places (Stmt.nodesBody stmts) ≤
      calls places (Expr.nodesAll targets) + runs places value.nodes + extra := by
  obtain ⟨elements, hparts, hstores⟩ := exists_inferAssign hreach
  have hstores : runs places _ ≤ _ := runs_storeAll hstores
  rw [calls_unpackedTargets] at hstores
  cases hparts with
  | whole =>
      simp only [Expr.nodesAll, List.append_nil] at hstores
      omega
  | elements hsize hrule =>
      have helements := runs_elements hextra hsize hrule
      omega

/-! ## Statements -/

theorem runs_inferPrinted {values results : List Expr} {before after : Scope}
    (hreach : Pass.Reaches (inferPrinted setting values) before results after) :
    runs places (Expr.nodesAll results) ≤ calls places (Expr.nodesAll values) := by
  induction values generalizing results before with
  | nil =>
      simp only [inferPrinted, Pass.reaches_pure] at hreach
      obtain ⟨rfl, -⟩ := hreach
      exact Nat.le_refl 0
  | cons value values ih =>
      simp only [inferPrinted, Pass.reaches_bind, reaches_apply, Except.ok.injEq,
        Pass.reaches_pure] at hreach
      obtain ⟨_, _, hvalue, _, _, ⟨rfl, rfl⟩, _, _, hrest, rfl, rfl⟩ := hreach
      simp only [Expr.nodesAll, runs_append, runs_convert, calls_append]
      exact Nat.add_le_add (runs_inferExpr hvalue) (ih hrest)

theorem runs_inferTest {test result : Expr} {before after : Scope}
    (hreach : Pass.Reaches (inferTest setting test) before result after) :
    runs places result.nodes ≤ calls places test.nodes := by
  simp only [inferTest, Pass.reaches_bind, reaches_apply, Except.ok.injEq] at hreach
  obtain ⟨_, _, htest, rfl, rfl⟩ := hreach
  rw [runs_convert]
  exact runs_inferExpr htest

theorem runs_inferReturn {value : Option Expr} {stmt : Stmt} {before after : Scope}
    (hreach : Pass.Reaches (inferReturn span value) before stmt after) :
    runs places (Stmt.nodesBody [stmt]) ≤ runs places (Expr.nodesAll value.toList) := by
  cases returnOutcome_of_reaches hreach with
  | nothing => exact Nat.zero_le _
  | value =>
      simp [Stmt.nested, Stmt.nodes, Stmt.exprs, Expr.nodesAll, Expr.nodes, runs_cons, Expr.isRunAt]

/-- How often the calls at these places in some statements may be run. -/
def allowance (places : Span → Bool) (stmts : List Stmt) : Nat :=
  calls places (stmts.flatMap Stmt.nodes) + Stmt.repeatsAll places stmts

theorem allowance_cons (stmt : Stmt) (stmts : List Stmt) :
    allowance places (stmt :: stmts) =
      calls places stmt.nodes + stmt.repeats places + allowance places stmts := by
  simp only [allowance, List.flatMap_cons, Stmt.repeatsAll, calls_append]
  omega

theorem allowance_append (first second : List Stmt) :
    allowance places (first ++ second) = allowance places first + allowance places second := by
  induction first with
  | nil => simp [allowance, Stmt.repeatsAll]
  | cons stmt first ih =>
      rw [List.cons_append, allowance_cons, ih, allowance_cons]
      omega

mutual

/-- Visited statements run the calls of a statement as often as it allows. -/
theorem runs_inferStmt {stmt : Stmt} {results : List Stmt} {before after : Scope}
    (huncounted : ∀ inner ∈ stmt.nested, inner.Uncounted)
    (hreach : Pass.Reaches (inferStmt setting stmt) before results after) :
    runs places (Stmt.nodesBody results) ≤ allowance places stmt.nested := by
  cases stmt with
  | assign span targets value =>
      simp only [inferStmt, Pass.reaches_bind] at hreach
      obtain ⟨value', middle, hvalue, hassign⟩ := hreach
      have hruns : runs places value'.nodes ≤ _ := runs_inferExpr hvalue
      have hstores : runs places _ ≤ _ + (Stmt.assign span targets value).repeats places :=
        runs_inferAssign (fun elem size hty => by
          simp only [Stmt.repeats]
          split
          next hdisplay => exact absurd hty (typeIn?_of_isDisplay hdisplay hvalue elem size)
          next => exact Nat.mul_le_mul_left _ hruns) hassign
      simp only [Stmt.nested, allowance_cons, Stmt.nodes, Stmt.exprs, Expr.nodesAll_append,
        calls_append, Expr.nodesAll, List.append_nil]
      omega
  | augAssign span target op value =>
      simp only [inferStmt, Pass.reaches_bind] at hreach
      obtain ⟨value', middle, hvalue, hstore⟩ := hreach
      have hruns : runs places value'.nodes ≤ _ := runs_inferExpr hvalue
      have hstores : runs places _ ≤ _ := runs_storeAll hstore
      rw [calls_below rfl] at hruns
      simp only [Expr.children, Expr.nodesAll, List.append_nil, calls_append,
        calls_withAccess] at hruns hstores
      simp only [Stmt.nested, allowance_cons, Stmt.nodes, Stmt.exprs, Expr.nodesAll,
        calls_append, List.append_nil, Stmt.repeats]
      omega
  | forIn span target iter body orelse index =>
      obtain ⟨hself, hbodies⟩ := List.forall_mem_cons.mp huncounted
      obtain rfl : index = none := hself
      obtain ⟨rfl, -, iter', _, _, target', _, _, body', hiter, -, htarget, -, hbody, rfl⟩ :=
        exists_forIn hreach
      have hiter : runs places iter'.nodes ≤ _ := runs_inferExpr hiter
      have htarget : runs places target'.nodes ≤ _ := runs_inferExpr htarget
      have hbody : runs places (Stmt.nodesBody body') ≤ _ :=
        runs_inferBody (List.forall_mem_append.mp hbodies).1 hbody
      simp only [Stmt.nested, Stmt.nestedBody, allowance_cons, Stmt.nodesBody, Stmt.nodes,
        Stmt.exprs, List.flatMap_cons, List.append_nil, Expr.nodesAll, Option.toList_none,
        runs_append, calls_append] at hbody ⊢
      omega
  | whileLoop span test body orelse =>
      obtain ⟨-, hbodies⟩ := List.forall_mem_cons.mp huncounted
      obtain ⟨rfl, test', _, body', htest, hbody, rfl⟩ := exists_whileLoop hreach
      have htest : runs places test'.nodes ≤ _ := runs_inferTest htest
      have hbody : runs places (Stmt.nodesBody body') ≤ _ :=
        runs_inferBody (List.forall_mem_append.mp hbodies).1 hbody
      simp only [Stmt.nested, Stmt.nestedBody, allowance_cons, Stmt.nodesBody, Stmt.nodes,
        Stmt.exprs, List.flatMap_cons, List.append_nil, Expr.nodesAll, runs_append] at hbody ⊢
      omega
  | branch span test body orelse =>
      obtain ⟨-, hbodies⟩ := List.forall_mem_cons.mp huncounted
      obtain ⟨hbodyUncounted, horelseUncounted⟩ := List.forall_mem_append.mp hbodies
      simp only [inferStmt, Pass.reaches_bind, Pass.reaches_pure] at hreach
      obtain ⟨test', _, htest, body', _, hbody, orelse', _, horelse, rfl, -⟩ := hreach
      have htest : runs places test'.nodes ≤ _ := runs_inferTest htest
      have hbody : runs places (Stmt.nodesBody body') ≤ _ := runs_inferBody hbodyUncounted hbody
      have horelse : runs places (Stmt.nodesBody orelse') ≤ _ :=
        runs_inferBody horelseUncounted horelse
      simp only [Stmt.nested, Stmt.nestedBody, allowance_cons, allowance_append, Stmt.nodesBody,
        Stmt.nodes, Stmt.exprs, List.flatMap_cons, List.flatMap_append, List.append_nil,
        Expr.nodesAll, runs_append] at hbody horelse ⊢
      omega
  | ret span value =>
      simp only [inferStmt, Pass.reaches_bind, Pass.reaches_pure] at hreach
      obtain ⟨value', _, hvalue, stmt', _, hreturn, rfl, -⟩ := hreach
      have hvalue : runs places (Expr.nodesAll value'.toList) ≤ _ := runs_inferPart hvalue
      have hreturn : runs places (Stmt.nodesBody [stmt']) ≤ _ := runs_inferReturn hreturn
      simp only [Stmt.nested, allowance_cons, Stmt.nodes, Stmt.exprs]
      omega
  | expr span value =>
      simp only [inferStmt, Pass.reaches_bind, Pass.reaches_pure] at hreach
      obtain ⟨value', _, hvalue, rfl, -⟩ := hreach
      have hvalue : runs places value'.nodes ≤ _ := runs_inferExpr hvalue
      simp only [Stmt.nodesBody_cons, Stmt.nodesBody_nil, Stmt.nested, allowance_cons, Stmt.nodes,
        Stmt.exprs, List.flatMap_cons, List.flatMap_nil, Expr.nodesAll, List.append_nil]
      omega
  | print span values dest newline =>
      simp only [inferStmt, Pass.reaches_bind, Pass.reaches_pure] at hreach
      obtain ⟨values', _, hvalues, dest', _, hdest, rfl, -⟩ := hreach
      have hvalues : runs places (Expr.nodesAll values') ≤ _ := runs_inferPrinted hvalues
      have hdest : runs places (Expr.nodesAll dest'.toList) ≤ _ := runs_inferPart hdest
      simp only [Stmt.nodesBody_cons, Stmt.nodesBody_nil, Stmt.nested, allowance_cons, Stmt.nodes,
        Stmt.exprs, List.flatMap_cons, List.flatMap_nil, Expr.nodesAll_append, List.append_nil,
        runs_append, calls_append]
      omega
  | global => simp only [inferStmt, not_reaches_refuse] at hreach
  | _ =>
      simp only [inferStmt, Pass.reaches_pure] at hreach
      obtain ⟨rfl, -⟩ := hreach
      exact Nat.zero_le _
termination_by structural stmt

theorem runs_inferBody {body results : List Stmt} {before after : Scope}
    (huncounted : ∀ inner ∈ Stmt.nestedBody body, inner.Uncounted)
    (hreach : Pass.Reaches (inferBody setting body) before results after) :
    runs places (Stmt.nodesBody results) ≤ allowance places (Stmt.nestedBody body) := by
  cases body with
  | nil =>
      simp only [inferBody, Pass.reaches_pure] at hreach
      obtain ⟨rfl, -⟩ := hreach
      exact Nat.zero_le _
  | cons stmt body =>
      obtain ⟨hstmt, hbody⟩ := List.forall_mem_append.mp huncounted
      simp only [inferBody, Pass.reaches_bind, Pass.reaches_pure] at hreach
      obtain ⟨_, _, hstmts, _, _, hrest, rfl, -⟩ := hreach
      rw [Stmt.nodesBody_append, runs_append, Stmt.nestedBody, allowance_append]
      exact Nat.add_le_add (runs_inferStmt hstmt hstmts) (runs_inferBody hbody hrest)
termination_by structural body

end

end Inference

/-! ## Functions -/

/-- A namespace with a compiled function that makes a matrix; its other names are global. -/
def gridAndGlobals : Inference.Setting where
  names.lookup name :=
    if name = "grid" then .native ⟨"grid", ⟨[], .strided .float64 2⟩⟩ else .global
  names.attribute? _ _ := none

/-- `xs[advance()] += step(1)`, then `rows, columns = grid().shape`, then
`a, b = advance(), step(2)`. -/
def repeating : FunctionDef :=
  open Builder in
  function "repeating" ["xs"]
    [augAssign (.subscript {} (load "xs") (.index {} (call (load "advance") [])) .store) .add
        (call (load "step") [int 1]),
      assign (tupleStore [store "rows", store "columns"]) (attr (call (load "grid") []) "shape"),
      assign (tupleStore [store "a", store "b"])
        (tuple [call (load "advance") [], call (load "step") [int 2]])]

/-- `xs[advance()] += 1`. -/
def advancing : FunctionDef :=
  open Builder in
  function "f" ["xs"]
    [augAssign (.subscript {} (load "xs") (.index {} (call (load "advance") [])) .store) .add
      (int 1)]

end KernelFront
