import KernelFront.Proofs.InternalErrors

/-! # What internal errors say

Whatever tree is compiled, an internal error of the passes says one of five things: the rules of
inference and the later passes refuse for other reasons, or because something that an earlier step
should have left there is missing.
-/

namespace KernelFront

/-- What the internal errors of the passes say. -/
def internalTexts : List String :=
  ["lowered node in an input tree", "expression has no inferred type",
    "native callee without entry point", "node left without a type",
    "deferred coercion to an unresolved slot"]

/-- If the error is internal, it says one of these things. -/
def TypeError.Listed (error : TypeError) : Prop :=
  ∀ text, error.cause = .internal text → text ∈ internalTexts

theorem TypeError.listed_of_kind {error : TypeError} (hkind : error.kind ≠ .internal) :
    error.Listed := by
  intro text htext
  exact absurd (congrArg Cause.kind htext) hkind

theorem TypeError.listed_internal {text : String} {span : Span} (hmem : text ∈ internalTexts) :
    TypeError.Listed ⟨.internal text, span⟩ := by
  rintro _ ⟨⟩
  exact hmem

theorem composable_listed : Composable (Fails TypeError.Listed) := composable_fails _

theorem fails_ok {α : Type} {good : TypeError → Prop} (value : α) : Fails good α (.ok value) := by
  rintro _ ⟨⟩

theorem fails_error {α : Type} {good : TypeError → Prop} {error : TypeError} (hgood : good error) :
    Fails good α (.error error) := by
  rintro _ ⟨⟩
  exact hgood

/-! ## Rules of inference -/

namespace Inference

variable {table : SymbolTable} {span : Span} {access : Access}

theorem listed_typeOf (table : SymbolTable) (e : Expr) :
    Fails TypeError.Listed _ (typeOf table e) := by
  unfold typeOf
  split
  · exact fails_ok _
  · exact fails_error (TypeError.listed_internal (by decide))

theorem listed_join (left right : Ty) (span : Span) :
    Fails TypeError.Listed _ (join left right span) := by
  unfold join
  split
  · exact fails_ok _
  · exact fails_error (TypeError.listed_of_kind nofun)

theorem listed_typeBinOp {left right : Expr} {op : BinOp} :
    Fails TypeError.Listed _ (typeBinOp span left op right table) :=
  composable_listed.bind (listed_typeOf _ _) fun _ =>
    composable_listed.bind (listed_typeOf _ _) fun _ =>
      composable_listed.bind (listed_join _ _ _) fun _ => composable_listed.pure _

theorem listed_typeUnaryOp {op : UnaryOp} {operand : Expr} :
    Fails TypeError.Listed _ (typeUnaryOp span op operand table) := by
  unfold typeUnaryOp
  split
  · exact fails_ok _
  · exact composable_listed.bind (listed_typeOf _ _) fun _ => composable_listed.pure _

theorem listed_typeCompare {left right : Expr} {op : CmpOp} :
    Fails TypeError.Listed _ (typeCompare span left op right table) := by
  refine composable_listed.bind (listed_typeOf _ _) fun _ => ?_
  refine composable_listed.bind (listed_typeOf _ _) fun _ => ?_
  dsimp only
  split
  · exact composable_listed.pure _
  · exact composable_listed.bind (listed_join _ _ _) fun _ => composable_listed.pure _

theorem listed_typeIndex {value : Expr} :
    Fails TypeError.Listed _ (typeIndex span value table) := by
  unfold typeIndex
  split
  · exact composable_listed.bind (composable_listed.pure _) fun _ => composable_listed.pure _
  · exact composable_listed.bind (listed_typeOf _ _) fun _ => composable_listed.pure _

theorem listed_dynamicAttribute {value : Expr} {attr : String} :
    Fails TypeError.Listed _ (dynamicAttribute span value attr access table) := by
  unfold dynamicAttribute
  split
  · exact composable_listed.bind (listed_typeOf _ _) fun _ =>
      fails_error (TypeError.listed_of_kind nofun)
  · exact fails_ok _

theorem listed_typeAttribute {setting : Setting} {value : Expr} {attr : String} :
    Fails TypeError.Listed _ (typeAttribute setting span value attr access table) := by
  refine composable_listed.bind (listed_typeOf _ _) fun _ => ?_
  dsimp only
  split
  · split
    · exact fails_error (TypeError.listed_of_kind nofun)
    · split
      · exact fails_error (TypeError.listed_of_kind nofun)
      · exact composable_listed.pure _
  · split
    · exact composable_listed.pure _
    · exact composable_listed.pure _
    · exact composable_listed.pure _
    · exact composable_listed.pure _
    · exact listed_dynamicAttribute
  · exact composable_listed.pure _
  · split
    · exact listed_dynamicAttribute
    · split
      · exact fails_error (TypeError.listed_of_kind nofun)
      · exact composable_listed.pure _
  · exact listed_dynamicAttribute

theorem listed_selectorKind (e : Expr) :
    Fails TypeError.Listed _ (selectorKind table e) := by
  refine composable_listed.bind (listed_typeOf _ _) fun _ => ?_
  split
  · exact composable_listed.pure _
  · split
    · exact composable_listed.pure _
    · split
      · exact composable_listed.pure _
      · split <;> exact composable_listed.pure _

theorem listed_mapM {α β : Type} {rule : α → Except TypeError β}
    (hrule : ∀ x, Fails TypeError.Listed _ (rule x)) (xs : List α) :
    Fails TypeError.Listed _ (xs.mapM rule) := by
  induction xs with
  | nil => exact composable_listed.pure _
  | cons x xs ih =>
      rw [List.mapM_cons]
      exact composable_listed.bind (hrule x) fun _ =>
        composable_listed.bind ih fun _ => composable_listed.pure _

theorem listed_arraySubscript {elem : Ty} {ndim : Nat} {value selector : Expr} :
    Fails TypeError.Listed _ (arraySubscript span elem ndim value selector access table) := by
  unfold arraySubscript
  split
  · exact fails_ok _
  · refine composable_listed.bind (listed_mapM listed_selectorKind _) fun _ => ?_
    dsimp only
    split
    · exact composable_listed.pure _
    · split
      · exact fails_error (TypeError.listed_of_kind nofun)
      · exact composable_listed.pure _

theorem listed_elementSubscript {elem : Ty} {value selector : Expr} :
    Fails TypeError.Listed _ (elementSubscript span elem value selector access table) := by
  refine composable_listed.bind (listed_typeOf _ _) fun _ => ?_
  split
  · exact composable_listed.pure _
  · exact composable_listed.bind (listed_typeOf _ _) fun _ =>
      fails_error (TypeError.listed_of_kind nofun)

theorem listed_typeSubscript {value selector : Expr} :
    Fails TypeError.Listed _ (typeSubscript span value selector access table) := by
  refine composable_listed.bind (listed_typeOf _ _) fun _ => ?_
  split
  · exact listed_arraySubscript
  · exact listed_elementSubscript
  · exact listed_elementSubscript
  · exact composable_listed.pure _
  · exact fails_error (TypeError.listed_of_kind nofun)

theorem listed_directCall {entry : EntryPoint} {args : List Expr} :
    Fails TypeError.Listed _ (directCall span entry args table) := by
  unfold directCall
  dsimp only
  split
  · exact fails_error (TypeError.listed_of_kind nofun)
  · exact fails_ok _

variable {setting : Setting}

theorem listed_arrayLength {array : Expr} :
    Fails TypeError.Listed _ (arrayLength setting span array table) := by
  refine composable_listed.bind (listed_typeOf _ _) fun _ => ?_
  split
  · exact composable_listed.pure _
  · exact fails_error (TypeError.listed_of_kind nofun)

theorem listed_typeBuiltinCall {name : String} {args : List Expr}
    {keywords : List (String × Expr)} :
    Fails TypeError.Listed _ (typeBuiltinCall setting span name args keywords table) := by
  unfold typeBuiltinCall
  dsimp only
  split
  · exact fails_error (TypeError.listed_of_kind nofun)
  · split
    case h_3 =>
      split
      · exact listed_arrayLength
      · exact fails_error (TypeError.listed_of_kind nofun)
    case h_6 => exact fails_error (TypeError.listed_of_kind nofun)
    all_goals
      split <;> first
        | exact fails_ok _
        | exact fails_error (TypeError.listed_of_kind nofun)

theorem listed_unpackedSize {value : Expr} :
    Fails TypeError.Listed _ (unpackedSize value table) := by
  refine composable_listed.bind (listed_typeOf _ _) fun _ => ?_
  split
  · exact composable_listed.pure _
  · exact composable_listed.pure _
  · exact composable_listed.pure _
  · exact fails_error (TypeError.listed_of_kind nofun)

theorem listed_unpackedElements {value : Expr} :
    Fails TypeError.Listed _ (unpackedElements setting value table) := by
  refine composable_listed.bind (listed_typeOf _ _) fun _ => ?_
  split
  · exact composable_listed.pure _
  · exact composable_listed.pure _
  · exact composable_listed.pure _
  · split
    · exact composable_listed.pure _
    · exact fails_error (TypeError.listed_of_kind nofun)

theorem listed_elementType {iter : Expr} :
    Fails TypeError.Listed _ (elementType setting iter table) := by
  refine composable_listed.bind (listed_typeOf _ _) fun _ => ?_
  split
  · exact composable_listed.pure _
  · split <;> exact composable_listed.pure _
  · exact fails_error (TypeError.listed_of_kind nofun)

/-! ## Inference -/

/-- Whatever the scope and the answers are, an internal error of the pass says one of these
things. -/
def Lists (α : Type) (pass : Infer α) : Prop :=
  ∀ before, Pass.Meets TypeError.Listed pass before fun _ _ => True

theorem composable_lists : Composable Lists :=
  ⟨fun _ _ => Pass.meets_pure trivial, fun hfirst hnext before =>
    Pass.meets_bind (hfirst before) fun value after _ => hnext value after⟩

theorem lists_get : Lists _ (get : Infer Scope) := fun _ => Pass.meets_get trivial

theorem lists_modify (f : Scope → Scope) : Lists _ (modify f : Infer PUnit) :=
  fun _ => Pass.meets_modify trivial

theorem lists_lift {α : Type} {pass : Pass α}
    (hpass : ∀ error, Pass.Refuses pass error → error.Listed) : Lists α (StateT.lift pass) :=
  fun _ => Pass.meets_lift (fun _ _ => trivial) hpass

theorem lists_report (text : String) : Lists _ (report text) :=
  lists_lift fun _ hrefuses => absurd hrefuses Pass.not_refuses_report

theorem lists_refuse {α : Type} {cause : Cause} {span : Span}
    (hlisted : TypeError.Listed ⟨cause, span⟩) : Lists α (refuse cause span) :=
  fun _ => Pass.meets_throw hlisted

theorem lists_apply {α : Type} {rule : SymbolTable → Except TypeError α}
    (hrule : ∀ table, Fails TypeError.Listed _ (rule table)) : Lists α (apply rule) := by
  refine composable_lists.bind lists_get fun scope => ?_
  have hscope := hrule scope.symbols
  split
  · exact composable_lists.pure _
  · rename_i error herror
    exact fun _ => Pass.meets_throw (hscope error herror)

/-- A free name gets a binding, whatever its type is. -/
theorem lists_bindFree (name : String) : Lists _ (bindFree setting name) := by
  have hbind (ty : Ty) : Lists SymbolId (do
      report ("[infer] free name `" ++ name ++ "` is " ++ ty.text)
      let table := (← get).symbols
      modify fun scope => { scope with symbols := (table.insert (.globalNamed name ty)).2 }
      pure ⟨table.size⟩) :=
    composable_lists.bind (lists_report _) fun _ => composable_lists.bind lists_get fun _ =>
      composable_lists.bind (lists_modify _) fun _ => composable_lists.pure _
  unfold bindFree
  split
  · exact composable_lists.bind (composable_lists.pure _) hbind
  · exact composable_lists.bind (composable_lists.pure _) hbind
  · exact composable_lists.bind (lists_modify _) fun _ =>
      composable_lists.bind (composable_lists.pure _) hbind
  · exact composable_lists.bind (composable_lists.pure _) hbind

theorem lists_visitName (name : String) (access : Access) (span : Span) :
    Lists _ (visitName setting name access span) := by
  refine composable_lists.bind lists_get fun scope => ?_
  dsimp only
  split
  · split
    · exact composable_lists.bind (lists_refuse (TypeError.listed_of_kind nofun)) fun _ =>
        composable_lists.pure _
    · exact composable_lists.bind (composable_lists.pure _) fun _ => composable_lists.pure _
  · exact composable_lists.bind (lists_bindFree name) fun _ => composable_lists.pure _

theorem lists_typeExternalCall {span : Span} {callee : String} {func : Expr} {args : List Expr}
    {keywords : List (String × Expr)} {ty : SymbolTable → Ty} :
    Lists _ (typeExternalCall span callee func args keywords ty) := by
  have hhost : Lists Expr (do
      report ("[infer] `" ++ callee ++ "` called through the object protocol")
      apply fun table => .ok (hostCall span func args keywords (ty table) table)) :=
    composable_lists.bind (lists_report _) fun _ => lists_apply fun _ => fails_ok _
  unfold typeExternalCall
  dsimp only
  split
  · refine composable_lists.bind (lists_apply fun table => listed_mapM (listed_typeOf table) args)
      fun types => composable_lists.bind ?_ fun answer => ?_
    · exact lists_lift fun _ hrefuses => absurd hrefuses Pass.not_refuses_ask
    · cases answer with
      | native entry =>
          refine composable_lists.bind (lists_report _) fun _ => ?_
          exact lists_apply fun _ => listed_directCall
      | host => exact hhost
  · exact hhost

theorem lists_typeCall {span : Span} {func : Expr} {args : List Expr}
    {keywords : List (String × Expr)} :
    Lists _ (typeCall setting span func args keywords) := by
  have hhost : Lists Expr (apply fun table =>
      .ok (hostCall span func args keywords .object table)) := lists_apply fun _ => fails_ok _
  refine composable_lists.bind (lists_apply fun table => listed_typeOf table func) fun _ => ?_
  split
  · exact lists_apply fun _ => listed_typeBuiltinCall
  · split
    · refine composable_lists.bind lists_get fun _ => ?_
      dsimp only
      split
      · exact lists_apply fun _ => listed_directCall
      · exact lists_refuse (TypeError.listed_internal (by decide))
    · exact hhost
  · exact lists_typeExternalCall
  · exact lists_typeExternalCall
  · exact hhost

mutual

theorem lists_inferExpr (e : Expr) : Lists _ (inferExpr setting e) := by
  cases e with
  | name note id access =>
      simp only [inferExpr]
      exact lists_visitName id access note.span
  | const note value => exact composable_lists.pure _
  | ellipsis note => exact composable_lists.pure _
  | binOp note left op right =>
      exact composable_lists.bind (lists_inferExpr left) fun _ =>
        composable_lists.bind (lists_inferExpr right) fun _ => lists_apply fun _ => listed_typeBinOp
  | boolOp note op values =>
      simp only [inferExpr]
      split
      · exact lists_refuse (TypeError.listed_of_kind nofun)
      · exact composable_lists.bind (lists_inferAll values) fun _ => lists_apply fun _ => fails_ok _
  | unaryOp note op operand =>
      exact composable_lists.bind (lists_inferExpr operand) fun _ =>
        lists_apply fun _ => listed_typeUnaryOp
  | compare note left ops comparators =>
      have hchained : Lists Expr (refuse (.unsupported "chained comparison") note.span) :=
        lists_refuse (TypeError.listed_of_kind nofun)
      rcases ops with _ | ⟨op, _ | ⟨_, _⟩⟩
      · exact hchained
      · rcases comparators with _ | ⟨right, _ | ⟨_, _⟩⟩
        · exact hchained
        · exact composable_lists.bind (lists_inferExpr left) fun _ =>
            composable_lists.bind (lists_inferExpr right) fun _ =>
              lists_apply fun _ => listed_typeCompare
        · exact hchained
      · exact hchained
  | call note func args keywords =>
      exact composable_lists.bind (lists_inferExpr func) fun _ =>
        composable_lists.bind (lists_inferAll args) fun _ =>
          composable_lists.bind (lists_inferKeywords keywords) fun _ => lists_typeCall
  | «attribute» note value attr access =>
      exact composable_lists.bind (lists_inferExpr value) fun _ =>
        lists_apply fun _ => listed_typeAttribute
  | subscript note value selector access =>
      exact composable_lists.bind (lists_inferExpr value) fun _ =>
        composable_lists.bind (lists_inferExpr selector) fun _ =>
          lists_apply fun _ => listed_typeSubscript
  | index note value =>
      exact composable_lists.bind (lists_inferExpr value) fun _ =>
        lists_apply fun _ => listed_typeIndex
  | slice note lower upper step =>
      exact composable_lists.bind (lists_inferPart lower) fun _ =>
        composable_lists.bind (lists_inferPart upper) fun _ =>
          composable_lists.bind (lists_inferPart step) fun _ => composable_lists.pure _
  | extSlice note dims =>
      exact composable_lists.bind (lists_inferAll dims) fun _ => composable_lists.pure _
  | tuple note elts access =>
      exact composable_lists.bind (lists_inferAll elts) fun _ => lists_apply fun _ => fails_ok _
  | list note elts access =>
      exact composable_lists.bind (lists_inferAll elts) fun _ => composable_lists.pure _
  | dict note keys values =>
      exact composable_lists.bind (lists_inferAll keys) fun _ =>
        composable_lists.bind (lists_inferAll values) fun _ => lists_apply fun _ => fails_ok _
  | _ => exact lists_refuse (TypeError.listed_internal (by decide))
termination_by structural e

theorem lists_inferAll (es : List Expr) : Lists _ (inferAll setting es) := by
  cases es with
  | nil => exact composable_lists.pure _
  | cons e es =>
      exact composable_lists.bind (lists_inferExpr e) fun _ =>
        composable_lists.bind (lists_inferAll es) fun _ => composable_lists.pure _
termination_by structural es

theorem lists_inferKeywords (keywords : List (String × Expr)) :
    Lists _ (inferKeywords setting keywords) := by
  cases keywords with
  | nil => exact composable_lists.pure _
  | cons keyword keywords =>
      obtain ⟨name, e⟩ := keyword
      exact composable_lists.bind (lists_inferExpr e) fun _ =>
        composable_lists.bind (lists_inferKeywords keywords) fun _ => composable_lists.pure _
termination_by structural keywords

theorem lists_inferPart (part : Option Expr) : Lists _ (inferPart setting part) := by
  cases part with
  | none => exact composable_lists.pure _
  | some e => exact composable_lists.bind (lists_inferExpr e) fun _ => composable_lists.pure _
termination_by structural part

end

theorem listed_discard {α : Type} {outcome : Except TypeError α}
    (houtcome : Fails TypeError.Listed α outcome) : Fails TypeError.Listed _ (discard outcome) := by
  intro error herror
  cases outcome with
  | ok value => cases herror
  | error other =>
      cases herror
      exact houtcome _ rfl

theorem lists_typeStore {target value : Expr} {span : Span} :
    Lists _ (typeStore target value span) := by
  have hrhs : Lists _ (apply fun table => typeOf table value) :=
    lists_apply fun table => listed_typeOf table value
  have hsettled (rhs : Ty) : Lists Stmt (apply fun table => do
      let lhs ← typeOf table target
      if lhs ≠ rhs then discard (join lhs rhs value.span)
      pure (.assign span [target] (value.convert table lhs))) := by
    refine lists_apply fun table => composable_listed.bind (listed_typeOf _ _) fun lhs => ?_
    dsimp only
    split
    · exact composable_listed.bind (listed_discard (listed_join _ _ _)) fun _ =>
        composable_listed.pure _
    · exact composable_listed.pure _
  refine composable_lists.bind lists_get fun scope => composable_lists.bind hrhs fun rhs => ?_
  dsimp only
  split
  · split
    · exact composable_lists.bind (lists_modify _) fun _ => composable_lists.pure _
    · exact hsettled rhs
  · exact hsettled rhs

theorem lists_storeAll (span : Span) (targets elements : List Expr) :
    Lists _ (storeAll setting span targets elements) := by
  induction targets generalizing elements with
  | nil => exact composable_lists.pure _
  | cons target targets ih =>
      cases elements with
      | nil => exact composable_lists.pure _
      | cons element elements =>
          exact composable_lists.bind (lists_inferExpr target) fun _ =>
            composable_lists.bind lists_typeStore fun _ =>
              composable_lists.bind (ih elements) fun _ => composable_lists.pure _

theorem lists_unpack {span : Span} {targets : List Expr} {value : Expr} :
    Lists _ (unpack setting span targets value) := by
  have hsize : Lists _ (apply (unpackedSize value)) := lists_apply fun _ => listed_unpackedSize
  have helements : Lists _ (apply (unpackedElements setting value)) :=
    lists_apply fun _ => listed_unpackedElements
  refine composable_lists.bind hsize fun size => ?_
  split
  · exact lists_refuse (TypeError.listed_of_kind nofun)
  · exact composable_lists.bind helements fun elements => lists_storeAll span targets elements

theorem lists_inferAssign {span : Span} {targets : List Expr} {value : Expr} :
    Lists _ (inferAssign setting span targets value) := by
  unfold inferAssign
  split
  · exact lists_unpack
  · exact lists_unpack
  · exact lists_storeAll _ _ _
  · exact lists_unpack

theorem lists_bindElement {target : Expr} {element : Ty} :
    Lists _ (bindElement target element) := by
  have hsettled : Lists Unit (apply fun table => do
      let current ← typeOf table target
      if current ≠ element then discard (join current element target.span)) := by
    refine lists_apply fun table => composable_listed.bind (listed_typeOf _ _) fun current => ?_
    split
    · exact listed_discard (listed_join _ _ _)
    · exact composable_listed.pure _
  refine composable_lists.bind lists_get fun scope => ?_
  dsimp only
  split
  · split
    · exact lists_modify _
    · exact hsettled
  · exact hsettled

/-- A value widens the result to a common type, or there is none. -/
theorem lists_returnValue (span : Span) (value : Expr) : Lists _ (returnValue span value) := by
  have hty : Lists _ (apply fun table => typeOf table value) :=
    lists_apply fun table => listed_typeOf table value
  refine composable_lists.bind hty fun ty => composable_lists.bind lists_get fun scope => ?_
  split
  · exact composable_lists.bind (composable_lists.pure _) fun _ =>
      composable_lists.bind (lists_modify _) fun _ => composable_lists.pure _
  · rename_i current _
    have hjoin : Lists _ (apply fun _ => join current ty value.span) :=
      lists_apply fun _ => listed_join _ _ _
    exact composable_lists.bind hjoin fun _ =>
      composable_lists.bind (lists_modify _) fun _ => composable_lists.pure _

theorem lists_inferReturn (span : Span) (value : Option Expr) :
    Lists _ (inferReturn span value) := by
  have hnothing : Lists _ (returnNothing span) := by
    refine composable_lists.bind lists_get fun scope => ?_
    split
    · exact composable_lists.bind (lists_modify _) fun _ => composable_lists.pure _
    · exact composable_lists.bind (lists_modify _) fun _ => composable_lists.pure _
    · exact lists_refuse (TypeError.listed_of_kind nofun)
  cases value with
  | none => exact hnothing
  | some value =>
      refine composable_lists.bind lists_get fun scope => ?_
      split
      · exact hnothing
      · exact lists_returnValue span value

theorem lists_inferTest (test : Expr) : Lists _ (inferTest setting test) :=
  composable_lists.bind (lists_inferExpr test) fun _ => lists_apply fun _ => fails_ok _

theorem lists_inferPrinted (values : List Expr) : Lists _ (inferPrinted setting values) := by
  induction values with
  | nil => exact composable_lists.pure _
  | cons value values ih =>
      refine composable_lists.bind (lists_inferExpr value) fun value => ?_
      have hboxed : Lists Expr (apply fun table => .ok (value.convert table .object)) :=
        lists_apply fun _ => fails_ok _
      exact composable_lists.bind hboxed fun _ =>
        composable_lists.bind ih fun _ => composable_lists.pure _

mutual

theorem lists_inferStmt (stmt : Stmt) : Lists _ (inferStmt setting stmt) := by
  cases stmt with
  | assign span targets value =>
      exact composable_lists.bind (lists_inferExpr value) fun _ => lists_inferAssign
  | augAssign span target op value =>
      exact composable_lists.bind (lists_inferExpr _) fun _ => lists_storeAll _ _ _
  | forIn span target iter body orelse index =>
      simp only [inferStmt]
      split
      · exact lists_refuse (TypeError.listed_of_kind nofun)
      · split
        · exact lists_refuse (TypeError.listed_of_kind nofun)
        · refine composable_lists.bind (lists_inferExpr iter) fun iter => ?_
          have helement : Lists _ (apply (elementType setting iter)) :=
            lists_apply fun _ => listed_elementType
          exact composable_lists.bind helement fun _ =>
            composable_lists.bind (lists_inferExpr target) fun _ =>
              composable_lists.bind lists_bindElement fun _ =>
                composable_lists.bind (lists_inferBody body) fun _ => composable_lists.pure _
  | whileLoop span test body orelse =>
      simp only [inferStmt]
      split
      · exact lists_refuse (TypeError.listed_of_kind nofun)
      · exact composable_lists.bind (lists_inferTest test) fun _ =>
          composable_lists.bind (lists_inferBody body) fun _ => composable_lists.pure _
  | branch span test body orelse =>
      exact composable_lists.bind (lists_inferTest test) fun _ =>
        composable_lists.bind (lists_inferBody body) fun _ =>
          composable_lists.bind (lists_inferBody orelse) fun _ => composable_lists.pure _
  | ret span value =>
      exact composable_lists.bind (lists_inferPart value) fun value =>
        composable_lists.bind (lists_inferReturn span value) fun _ => composable_lists.pure _
  | expr span value =>
      exact composable_lists.bind (lists_inferExpr value) fun _ => composable_lists.pure _
  | print span values dest newline =>
      exact composable_lists.bind (lists_inferPrinted values) fun _ =>
        composable_lists.bind (lists_inferPart dest) fun _ => composable_lists.pure _
  | global span names => exact lists_refuse (TypeError.listed_of_kind nofun)
  | pass | «break» | «continue» => exact composable_lists.pure _
termination_by structural stmt

theorem lists_inferBody (body : List Stmt) : Lists _ (inferBody setting body) := by
  cases body with
  | nil => exact composable_lists.pure _
  | cons stmt body =>
      exact composable_lists.bind (lists_inferStmt stmt) fun _ =>
        composable_lists.bind (lists_inferBody body) fun _ => composable_lists.pure _
termination_by structural body

end

theorem lists_settleResult (declared : Option Ty) (span : Span) :
    Lists _ (settleResult declared span) := by
  have hset (ty : Ty) : Lists Ty (do
      modify fun scope => scope.setType Scope.resultSlot ty
      pure ty) :=
    composable_lists.bind (lists_modify _) fun _ => composable_lists.pure _
  refine composable_lists.bind lists_get fun scope => ?_
  split
  · exact composable_lists.bind (composable_lists.pure _) hset
  · exact composable_lists.bind (composable_lists.pure _) hset
  · rename_i found declared _
    have hjoin : Lists _ (apply fun _ => join declared found span) :=
      lists_apply fun _ => listed_join _ _ _
    split
    · exact composable_lists.bind (composable_lists.pure _) hset
    · exact composable_lists.bind hjoin hset
  · exact composable_lists.bind (composable_lists.pure _) hset

/-- An internal error of inference says one of these things. -/
theorem listed_of_inferFunction {func : FunctionDef} {signature : Signature} {error : TypeError}
    (hrefuses : Pass.Refuses (inferFunction setting func signature) error) : error.Listed := by
  unfold inferFunction at hrefuses
  split at hrefuses
  · rw [Pass.refuses_throw.mp hrefuses]
    exact TypeError.listed_of_kind nofun
  · have hinfer : Lists _ (do
        let body ← inferBody setting func.body
        let ret ← settleResult signature.ret func.span
        pure (body, ret)) :=
      composable_lists.bind (lists_inferBody func.body) fun _ =>
        composable_lists.bind (lists_settleResult _ _) fun _ => composable_lists.pure _
    simp only [Pass.refuses_bind] at hrefuses
    obtain hrefuses | ⟨_, _, hrefuses | ⟨_, _, hrefuses⟩⟩ := hrefuses
    · exact (hinfer _).refuses hrefuses
    · exact absurd hrefuses Pass.not_refuses_report
    · exact absurd hrefuses Pass.not_refuses_pure

end Inference

/-! ## Later passes -/

section Lowering

variable {table : SymbolTable} {func : FunctionDef} {error : TypeError}

theorem Expr.listed_resolveDeferred (e : Expr) :
    Fails TypeError.Listed _ (e.resolveDeferred table) := by
  unfold Expr.resolveDeferred
  split
  · split
    · exact fails_ok _
    · exact fails_error (TypeError.listed_internal (by decide))
  · exact fails_ok _

theorem Expr.listed_fixType (e : Expr) : Fails TypeError.Listed _ (e.fixType table) := by
  refine composable_listed.bind e.listed_resolveDeferred fun resolved => ?_
  split
  · exact composable_listed.pure _
  · exact fails_error (TypeError.listed_internal (by decide))

theorem Expr.listed_fixTypes (e : Expr) : Fails TypeError.Listed _ (e.fixTypes table) :=
  composable_listed.rebuildM fun node _ parts => (node.withChildren parts).listed_fixType

theorem FunctionDef.listed_of_typed (hrefuses : Pass.Refuses (func.typed table) error) :
    error.Listed := by
  have hbody : Fails TypeError.Listed _ (Stmt.fixTypes table func.body) :=
    composable_listed.rebuildBody (fun _ => composable_listed.pure _)
      fun _ _ e _ => e.listed_fixTypes
  have hfix : Fails TypeError.Listed _ (func.fixTypes table) := by
    refine composable_listed.bind hbody fun body => ?_
    split
    · rename_i value _
      exact composable_listed.bind value.listed_fixTypes fun _ => composable_listed.pure _
    · exact composable_listed.pure _
  simp only [FunctionDef.typed, Pass.refuses_bind, Pass.refuses_ofExcept] at hrefuses
  obtain hrefuses | ⟨_, _, hrefuses | ⟨_, _, hrefuses⟩⟩ := hrefuses
  · exact hfix error hrefuses
  · exact absurd hrefuses Pass.not_refuses_report
  · exact absurd hrefuses Pass.not_refuses_pure

/-- Only a conversion that still waits for its type ends in an internal error. -/
theorem Boxing.listed_boxExpr (e : Expr) (temps : List TempDecl) :
    Fails TypeError.Listed _ ((boxExpr table e).run temps) := by
  by_cases hself : e.isTransient = false
  · intro error herror
    exact TypeError.listed_of_kind (stable_boxExpr hself temps error herror)
  · cases e with
    | deferredCoercion =>
        exact composable_listed.bind (Expr.listed_resolveDeferred _) fun _ =>
          composable_listed.pure _
    | objectTemp => exact composable_listed.pure _
    | _ => exact absurd rfl hself

theorem FunctionDef.listed_of_boxed {signature : FunctionType}
    (hrefuses : Pass.Refuses (func.boxed table signature) error) : error.Listed := by
  have hbody : ∀ temps,
      Fails TypeError.Listed _ ((Boxing.boxBody table func.body).run temps) := by
    refine (Boxing.composable_run _).rebuildBody (fun stmt temps error herror => ?_) fun _ _ e _ =>
      (Boxing.composable_run _).rebuildM fun node _ parts => Boxing.listed_boxExpr _
    exact TypeError.listed_of_kind (Boxing.stable_boxStmt stmt temps error herror)
  have hbox : Fails TypeError.Listed _ (func.box table signature) :=
    composable_listed.bind (hbody func.temps) fun _ => composable_listed.pure _
  simp only [FunctionDef.boxed, Pass.refuses_bind, Pass.refuses_ofExcept] at hrefuses
  obtain hrefuses | ⟨_, _, hrefuses | ⟨_, _, hrefuses⟩⟩ := hrefuses
  · exact hbox error hrefuses
  · exact absurd hrefuses Pass.not_refuses_report
  · exact absurd hrefuses Pass.not_refuses_pure

end Lowering

/-- Whatever tree is compiled and whatever the answers are, an internal error says one of these
things. -/
theorem FunctionDef.listed_of_compile {setting : Inference.Setting} {func : FunctionDef}
    {signature : Signature} {error : TypeError}
    (hrefuses : Pass.Refuses (func.compile setting signature) error) : error.Listed := by
  simp only [FunctionDef.compile, Pass.refuses_bind, Pass.not_refuses_report,
    Pass.not_refuses_pure, and_false, exists_false, or_false, false_or] at hrefuses
  obtain ⟨_, _, hrefuses | ⟨_, _, hrefuses | ⟨_, _, hrefuses | ⟨_, _, hrefuses⟩⟩⟩⟩ := hrefuses
  · exact Inference.listed_of_inferFunction hrefuses
  · exact FunctionDef.listed_of_typed hrefuses
  · exact TypeError.listed_of_kind (FunctionDef.not_internal_of_counted hrefuses)
  · exact FunctionDef.listed_of_boxed hrefuses

end KernelFront
