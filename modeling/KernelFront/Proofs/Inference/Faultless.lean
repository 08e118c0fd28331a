import KernelFront.Proofs.Inference.Tracking
import KernelFront.Proofs.Rebuilding

/-! # Inference without faults

A walk over a function looks up symbols that are in the table only, takes away dimensions that are
there only, and leaves valid expressions: each part is valid for the table that it was visited with,
which is still so when the rule of the whole is applied. This holds of every tree, whatever types
and bindings it carries from before; only a loop that is counted already would keep an expression
that the walk does not visit.
-/

namespace KernelFront

namespace Inference

open Guarded (Faultless)

variable {size later : Nat} {setting : Setting} {span : Span}

/-! ## Expressions -/

section Expressions

/-- The guarded visit of an expression does what the visit does, whatever table it begins with. -/
def Tracked (setting : Setting) (e : Expr) : Prop :=
  ∀ size, Tracks size (fun later result => AllValid later result.nodes)
    (Guarded.inferExpr setting e) (inferExpr setting e)

/-- Visited expressions, one after the other. -/
theorem tracks_inferAll {es : List Expr} (heach : ∀ e ∈ es, Tracked setting e) :
    Tracks size (fun later results => AllValid later (Expr.nodesAll results))
      (Guarded.inferAll setting es) (inferAll setting es) := by
  induction es generalizing size with
  | nil => exact tracks_pure allValid_nil
  | cons e es ih =>
      obtain ⟨he, hes⟩ := List.forall_mem_cons.mp heach
      refine tracks_bind (he size) fun middle _ result hresult => ?_
      refine tracks_bind (ih hes) fun later hlater results hresults => ?_
      exact tracks_pure (allValid_append.mpr ⟨hresult.mono hlater, hresults⟩)

theorem tracks_inferKeywords {keywords : List (String × Expr)}
    (heach : ∀ e ∈ keywords.map Prod.snd, Tracked setting e) :
    Tracks size (fun later results => AllValid later (Expr.nodesAll (results.map Prod.snd)))
      (Guarded.inferKeywords setting keywords) (inferKeywords setting keywords) := by
  induction keywords generalizing size with
  | nil => exact tracks_pure allValid_nil
  | cons keyword keywords ih =>
      obtain ⟨he, hes⟩ := List.forall_mem_cons.mp heach
      refine tracks_bind (he size) fun middle _ result hresult => ?_
      refine tracks_bind (ih hes) fun later hlater results hresults => ?_
      exact tracks_pure (allValid_append.mpr ⟨hresult.mono hlater, hresults⟩)

theorem tracks_inferPart {part : Option Expr} (heach : ∀ e ∈ part.toList, Tracked setting e) :
    Tracks size (fun later result => AllValid later (Expr.nodesAll result.toList))
      (Guarded.inferPart setting part) (inferPart setting part) := by
  cases part with
  | none => exact tracks_pure allValid_nil
  | some e =>
      refine tracks_bind (heach e (List.mem_singleton_self e) size) fun later _ result hresult => ?_
      exact tracks_pure (allValid_one.mpr hresult)

/-- A rule with one part. -/
theorem tracks_visit_one {value : Expr} {rule : SymbolTable → Except TypeError Expr}
    (hvalue : AllValid size value.nodes)
    (hrule : ∀ table : SymbolTable, table.Valid →
      ∀ result, rule table = .ok result → AllValid size result.nodes) :
    Tracks size (fun later result => AllValid later result.nodes)
      (Guarded.visit [value] (apply rule)) (apply rule) :=
  tracks_visit (allValid_one.mpr hvalue) (holds_apply hrule)

/-- A rule with two parts. -/
theorem tracks_visit_two {first second : Expr} {rule : SymbolTable → Except TypeError Expr}
    (hfirst : AllValid size first.nodes) (hsecond : AllValid size second.nodes)
    (hrule : ∀ table : SymbolTable, table.Valid →
      ∀ result, rule table = .ok result → AllValid size result.nodes) :
    Tracks size (fun later result => AllValid later result.nodes)
      (Guarded.visit [first, second] (apply rule)) (apply rule) :=
  tracks_visit (allValid_two.mpr ⟨hfirst, hsecond⟩) (holds_apply hrule)

/-- A comparison is one of two operands, or it is refused before any operand is visited. -/
theorem tracked_compare {note : Note} {left : Expr} {ops : List CmpOp} {comparators : List Expr}
    (hleft : Tracked setting left) (hcomparators : ∀ e ∈ comparators, Tracked setting e) :
    Tracked setting (.compare note left ops comparators) := by
  intro size
  rcases ops with _ | ⟨op, _ | ⟨_, _⟩⟩
  · simp only [Guarded.inferExpr, inferExpr]
    exact tracks_refuse
  · rcases comparators with _ | ⟨right, _ | ⟨_, _⟩⟩
    · simp only [Guarded.inferExpr, inferExpr]
      exact tracks_refuse
    · simp only [Guarded.inferExpr, inferExpr, Guarded.inferAll, bind_assoc, pure_bind,
        Guarded.element_cons_zero]
      refine tracks_bind (hleft size) fun middle _ left' hleft => ?_
      refine tracks_bind (hcomparators right List.mem_cons_self middle)
        fun later hlater right' hright => ?_
      exact tracks_visit_two (hleft.mono hlater) hright fun table htable result hrule =>
        valid_typeCompare htable (hleft.mono hlater) hright hrule
    · simp only [Guarded.inferExpr, inferExpr]
      exact tracks_refuse
  · simp only [Guarded.inferExpr, inferExpr]
    exact tracks_refuse

theorem tracked_call {note : Note} {func : Expr} {args : List Expr}
    {keywords : List (String × Expr)} (hsetting : setting.Ranked) (hfunc : Tracked setting func)
    (hargs : ∀ e ∈ args, Tracked setting e)
    (hkeywords : ∀ e ∈ keywords.map Prod.snd, Tracked setting e) :
    Tracked setting (.call note func args keywords) := by
  intro size
  simp only [Guarded.inferExpr, inferExpr]
  refine tracks_bind (hfunc size) fun first _ func' hfunc' => ?_
  refine tracks_bind (tracks_inferAll hargs) fun second hsecond args' hargs' => ?_
  refine tracks_bind (tracks_inferKeywords hkeywords) fun third hthird keywords' hkeywords' => ?_
  have hparts : AllValid third (callNodes func' args' keywords') := by
    simp only [callNodes, allValid_append]
    exact ⟨⟨(hfunc'.mono hsecond).mono hthird, hargs'.mono hthird⟩, hkeywords'⟩
  exact tracks_of_runs (fun scope hscope => runs_typeCall hscope hparts)
    (holds_typeCall hsetting hparts)

/-- Visiting an expression, whatever it carries itself. -/
theorem tracked_inferExpr {e : Expr} (hsetting : setting.Ranked) : Tracked setting e := by
  induction e using Expr.induct with
  | hstep e ih =>
      intro size
      cases e with
      | name note id access =>
          simp only [Guarded.inferExpr, inferExpr]
          exact tracks_visitName hsetting
      | const note value => exact tracks_pure (valid_literal value note.span)
      | ellipsis note =>
          refine tracks_pure ?_
          simp only [Expr.nodes, allValid_cons, allValid_nil, and_true]
          refine valid_value rfl rfl rfl
            (Variable.valid_constant (Ty.ranked_of_layouts rfl) fun hvalue => ?_)
          cases hvalue
      | binOp note left op right =>
          simp only [Guarded.inferExpr, inferExpr]
          refine tracks_bind (ih left List.mem_cons_self size) fun middle _ left' hleft => ?_
          refine tracks_bind (ih right (by simp [Expr.children]) middle)
            fun later hlater right' hright => ?_
          exact tracks_visit_two (hleft.mono hlater) hright fun table htable result hrule =>
            valid_typeBinOp htable (hleft.mono hlater) hright hrule
      | boolOp note op values =>
          simp only [Guarded.inferExpr, inferExpr]
          split
          · exact tracks_refuse
          · refine tracks_bind (tracks_inferAll ih) fun later _ values' hvalues => ?_
            refine tracks_visit hvalues (holds_apply fun table _ result hrule => ?_)
            cases hrule
            exact valid_typeBoolOp hvalues
      | unaryOp note op operand =>
          simp only [Guarded.inferExpr, inferExpr]
          have hvisit := ih operand List.mem_cons_self size
          refine tracks_bind hvisit fun later _ operand' hoperand => ?_
          exact tracks_visit_one hoperand fun table htable result hrule =>
            valid_typeUnaryOp htable hoperand hrule
      | compare note left ops comparators =>
          obtain ⟨hleft, hcomparators⟩ := List.forall_mem_cons.mp ih
          exact tracked_compare hleft hcomparators size
      | call note func args keywords =>
          obtain ⟨hfunc, hrest⟩ := List.forall_mem_cons.mp ih
          obtain ⟨hargs, hkeywords⟩ := List.forall_mem_append.mp hrest
          exact tracked_call hsetting hfunc hargs hkeywords size
      | «attribute» note value attr access =>
          simp only [Guarded.inferExpr, inferExpr]
          refine tracks_bind (ih value List.mem_cons_self size) fun later _ value' hvalue => ?_
          exact tracks_visit_one hvalue fun table htable result hrule =>
            valid_typeAttribute hsetting htable hvalue hrule
      | subscript note value selector access =>
          simp only [Guarded.inferExpr, inferExpr]
          refine tracks_bind (ih value List.mem_cons_self size) fun middle _ value' hvalue => ?_
          refine tracks_bind (ih selector (by simp [Expr.children]) middle)
            fun later hlater selector' hselector => ?_
          have hvalue := hvalue.mono hlater
          exact tracks_of_runs (fun scope hscope => runs_typeSubscript hscope hvalue hselector)
            (holds_apply fun table htable result hrule =>
              valid_typeSubscript htable hvalue hselector hrule)
      | index note value =>
          simp only [Guarded.inferExpr, inferExpr]
          refine tracks_bind (ih value List.mem_cons_self size) fun later _ value' hvalue => ?_
          exact tracks_visit_one hvalue fun table htable result hrule =>
            valid_typeIndex htable hvalue hrule
      | slice note lower upper step =>
          obtain ⟨hbounds, hstep⟩ := List.forall_mem_append.mp ih
          obtain ⟨hlower, hupper⟩ := List.forall_mem_append.mp hbounds
          simp only [Guarded.inferExpr, inferExpr]
          refine tracks_bind (tracks_inferPart hlower) fun first _ lower' hlower' => ?_
          refine tracks_bind (tracks_inferPart hupper) fun second hsecond upper' hupper' => ?_
          refine tracks_bind (tracks_inferPart hstep) fun third hthird step' hstep' => ?_
          refine tracks_pure ?_
          simp only [Expr.nodes, Expr.nodesPart_eq, allValid_cons, allValid_append]
          exact ⟨valid_typed rfl rfl rfl (Ty.ranked_of_layouts rfl),
            ⟨(hlower'.mono hsecond).mono hthird, hupper'.mono hthird⟩, hstep'⟩
      | extSlice note dims =>
          simp only [Guarded.inferExpr, inferExpr]
          refine tracks_bind (tracks_inferAll ih) fun later _ dims' hdims => ?_
          refine tracks_pure ?_
          simp only [Expr.nodes, allValid_cons]
          exact ⟨valid_typed rfl rfl rfl ranked_object, hdims⟩
      | tuple note elts access =>
          simp only [Guarded.inferExpr, inferExpr]
          refine tracks_bind (tracks_inferAll ih) fun later _ elts' helts => ?_
          refine tracks_visit helts (holds_apply fun table _ result hrule => ?_)
          cases hrule
          exact valid_typeTuple helts
      | list note elts access =>
          simp only [Guarded.inferExpr, inferExpr]
          refine tracks_bind (tracks_inferAll ih) fun later _ elts' helts => ?_
          exact tracks_pure (valid_typeList helts)
      | dict note keys values =>
          obtain ⟨hkeys, hvalues⟩ := List.forall_mem_append.mp ih
          simp only [Guarded.inferExpr, inferExpr]
          refine tracks_bind (tracks_inferAll hkeys) fun middle _ keys' hkeys' => ?_
          refine tracks_bind (tracks_inferAll hvalues) fun later hlater values' hvalues' => ?_
          have hkeys' := hkeys'.mono hlater
          have hparts : AllValid later (Expr.nodesAll (keys' ++ values')) := by
            simp only [Expr.nodesAll_append, allValid_append]
            exact ⟨hkeys', hvalues'⟩
          refine tracks_visit hparts (holds_apply fun table _ result hrule => ?_)
          cases hrule
          exact valid_typeDict hkeys' hvalues'
      | _ =>
          simp only [Guarded.inferExpr, inferExpr]
          exact tracks_refuse

end Expressions

/-! ## Statements -/

/-- All expressions of statements are valid, at every depth. -/
def ValidBody (size : Nat) (stmts : List Stmt) : Prop :=
  ∀ stmt ∈ Stmt.nestedBody stmts, AllValid size stmt.nodes

section Statements

variable {target value : Expr} {targets elements : List Expr}

theorem ValidBody.mono {stmts : List Stmt} (hstmts : ValidBody size stmts) (hle : size ≤ later) :
    ValidBody later stmts :=
  fun stmt hstmt => (hstmts stmt hstmt).mono hle

theorem validBody_nil : ValidBody size [] := List.forall_mem_nil _

theorem validBody_append {first second : List Stmt} (hfirst : ValidBody size first)
    (hsecond : ValidBody size second) : ValidBody size (first ++ second) := by
  rw [ValidBody, Stmt.nestedBody_append]
  exact List.forall_mem_append.mpr ⟨hfirst, hsecond⟩

theorem validBody_singleton {stmt : Stmt} (hstmt : AllValid size stmt.nodes)
    (hbodies : ∀ body ∈ stmt.bodies, ValidBody size body) : ValidBody size [stmt] :=
  Stmt.forall_nested hstmt hbodies

theorem validBody_assign (htarget : AllValid size target.nodes)
    (hvalue : AllValid size value.nodes) : ValidBody size [.assign span [target] value] :=
  validBody_singleton (allValid_two.mpr ⟨htarget, hvalue⟩) (List.forall_mem_nil _)

theorem holds_typeStore (htarget : AllValid size target.nodes)
    (hvalue : AllValid size value.nodes) :
    Holds size (fun stmt => ValidBody size [stmt]) (typeStore target value span) := by
  have hsettled {rhs : Ty} : Holds size (fun stmt => ValidBody size [stmt]) (apply fun table => do
      let lhs ← typeOf table target
      if lhs ≠ rhs then discard (join lhs rhs value.span)
      pure (.assign span [target] (value.convert table lhs))) := by
    refine holds_apply fun table htable result hrule => ?_
    simp only [bind_eq_ok] at hrule
    obtain ⟨lhs, hlhs, hrule⟩ := hrule
    have hconverted : ValidBody size [.assign span [target] (value.convert table lhs)] :=
      validBody_assign htarget (valid_convert hvalue (ranked_typeOf htable htarget hlhs))
    split at hrule
    · simp only [bind_eq_ok, pure_eq_ok] at hrule
      obtain ⟨_, _, rfl⟩ := hrule
      exact hconverted
    · obtain rfl := pure_eq_ok.mp hrule
      exact hconverted
  -- The binding has no type in the very table that is changed.
  intro before hbefore
  rw [typeStore, StateT.run_bind, StateT.run_get, pure_bind]
  dsimp only
  rw [StateT.run_bind]
  cases hrhs : typeOf before.symbols value with
  | error error =>
      rw [run_apply_error hrhs]
      exact Pass.obeys_throw
  | ok rhs =>
      rw [run_apply_ok hrhs, pure_bind]
      dsimp only
      split
      · split
        next huntyped =>
          exact Pass.obeys_pure ⟨hbefore.setUntyped (ranked_typeOf hbefore.symbols hvalue hrhs)
            huntyped, validBody_assign htarget hvalue⟩
        · exact hsettled before hbefore
      · exact hsettled before hbefore

theorem tracks_storeAll (hsetting : setting.Ranked)
    (helements : AllValid size (Expr.nodesAll elements)) :
    Tracks size ValidBody (Guarded.storeAll setting span targets elements)
      (storeAll setting span targets elements) := by
  induction targets generalizing size elements with
  | nil =>
      simp only [Guarded.storeAll, storeAll]
      exact tracks_pure validBody_nil
  | cons target targets ih =>
      cases elements with
      | nil =>
          simp only [Guarded.storeAll, storeAll]
          exact tracks_pure validBody_nil
      | cons element elements =>
          obtain ⟨helement, helements⟩ := allValid_append.mp helements
          simp only [Guarded.storeAll, storeAll]
          refine tracks_bind (tracked_inferExpr hsetting size)
            fun middle hmiddle target' htarget => ?_
          have helement := helement.mono hmiddle
          have hparts : AllValid middle (Expr.nodesAll [target', element]) :=
            allValid_two.mpr ⟨htarget, helement⟩
          have hstore : Tracks middle (fun later stmt => ValidBody later [stmt])
              (Guarded.visit [target', element] (typeStore target' element span))
              (typeStore target' element span) :=
            tracks_visit hparts (holds_typeStore htarget helement)
          refine tracks_bind hstore fun next hnext stmt hstmt => ?_
          refine tracks_bind (ih ((helements.mono hmiddle).mono hnext))
            fun later hlater stmts hstmts => ?_
          exact tracks_pure (validBody_append (hstmt.mono hlater) hstmts)

theorem valid_unpackedElements {table : SymbolTable} (hsetting : setting.Ranked)
    (htable : table.Valid) (hvalue : AllValid size value.nodes)
    (hrule : unpackedElements setting value table = .ok elements) :
    AllValid size (Expr.nodesAll elements) := by
  simp only [unpackedElements, bind_eq_ok] at hrule
  obtain ⟨ty, hty, hrule⟩ := hrule
  have hty := ranked_typeOf htable hvalue hty
  split at hrule
  · cases hrule
    refine allValid_nodesAll.mpr (List.forall_mem_map.mpr fun i _ => ?_)
    exact valid_subscript (hty.base rfl) hvalue (valid_indexConstant hsetting)
  · cases hrule
    exact (allValid_cons.mp hvalue).2
  · cases hrule
    exact (allValid_cons.mp hvalue).2
  · split at hrule
    · cases hrule
      refine allValid_nodesAll.mpr (List.forall_mem_map.mpr fun item _ => ?_)
      exact valid_literal item value.span
    · cases hrule

/-- A value is taken apart once it is known into how many elements. -/
theorem tracks_unpackInto (hsetting : setting.Ranked) (hvalue : AllValid size value.nodes) :
    Tracks size ValidBody (Guarded.unpackInto setting span targets value)
      (unpack setting span targets value) := by
  have hparts : AllValid size (Expr.nodesAll [value]) := allValid_one.mpr hvalue
  have hsize : Tracks size (fun _ _ => True) (Guarded.visit [value] (apply (unpackedSize value)))
      (apply (unpackedSize value)) :=
    tracks_visit hparts (holds_apply fun _ _ _ _ => trivial)
  refine tracks_bind hsize fun middle hmiddle count _ => ?_
  split
  · exact tracks_refuse
  · have hvalue := hvalue.mono hmiddle
    have helements : Tracks middle (fun later elements => AllValid later (Expr.nodesAll elements))
        (Guarded.visit [value] (apply (unpackedElements setting value)))
        (apply (unpackedElements setting value)) :=
      tracks_visit (hparts.mono hmiddle) (holds_apply fun table htable elements =>
        valid_unpackedElements hsetting htable hvalue)
    exact tracks_bind helements fun later _ elements helements =>
      tracks_storeAll hsetting helements

theorem tracks_inferAssign (hsetting : setting.Ranked) (hvalue : AllValid size value.nodes) :
    Tracks size ValidBody (Guarded.inferAssign setting span targets value)
      (inferAssign setting span targets value) := by
  rcases targets with _ | ⟨target, _ | ⟨second, rest⟩⟩
  · exact tracks_unpackInto hsetting hvalue
  · unfold Guarded.inferAssign Guarded.unpack
    simp only [List.length_singleton, ne_eq, not_true_eq_false, if_false, if_true,
      Guarded.element_cons_zero, pure_bind]
    cases target with
    | tuple | list => exact tracks_unpackInto hsetting hvalue
    | _ => exact tracks_storeAll hsetting (allValid_one.mpr hvalue)
  · unfold Guarded.inferAssign Guarded.unpack
    rw [if_pos (by simp), if_neg (by simp)]
    cases target <;> exact tracks_unpackInto hsetting hvalue

theorem holds_bindElement {element : Ty} (helement : element.Ranked) :
    Holds size (fun _ => True) (bindElement target element) := by
  have hsettled : Holds size (fun _ => True) (apply fun table => do
      let current ← typeOf table target
      if current ≠ element then discard (join current element target.span)) :=
    holds_apply fun _ _ _ _ => trivial
  intro before hbefore
  rw [bindElement, StateT.run_bind, StateT.run_get, pure_bind]
  dsimp only
  split
  · split
    next huntyped => exact Pass.obeys_pure ⟨hbefore.setUntyped helement huntyped, trivial⟩
    · exact hsettled before hbefore
  · exact hsettled before hbefore

theorem holds_setResult {α : Type} {ty : Ty} {result : α} {good : α → Prop} (hty : ty.Ranked)
    (hresult : good result) : Holds size good (do
      modify fun scope => scope.setType Scope.resultSlot ty
      pure result) :=
  keeps_modify_bind (fun _ hbefore => hbefore.setResult hty) (Pass.keeps_pure hresult)

/-- A returned value waits for the type of the result, whose binding is there. -/
theorem holds_inferReturn {value : Option Expr} (hslot : Scope.resultSlot.index < size)
    (hvalue : AllValid size (Expr.nodesAll value.toList)) :
    Holds size (fun stmt => ValidBody size [stmt]) (inferReturn span value) := by
  have hnothing : Holds size (fun stmt => ValidBody size [stmt]) (returnNothing span) := by
    have hret : ValidBody size [.ret span none] :=
      validBody_singleton allValid_nil (List.forall_mem_nil _)
    refine Pass.keeps_bind Pass.keeps_get fun scope _ => ?_
    split
    · exact holds_setResult (Ty.ranked_of_layouts rfl) hret
    · exact holds_setResult (Ty.ranked_of_layouts rfl) hret
    · exact Pass.keeps_throw
  cases value with
  | none => exact hnothing
  | some value =>
      have hvalue : AllValid size value.nodes := allValid_one.mp hvalue
      refine Pass.keeps_bind Pass.keeps_get fun scope _ => ?_
      split
      · exact hnothing
      · have hret : ValidBody size [.ret span (some (.deferredCoercion
            { span := value.span, binding := some (.symbol Scope.resultSlot) } value
            Scope.resultSlot))] := by
          refine validBody_singleton ?_ (List.forall_mem_nil _)
          simp only [Stmt.nodes, Stmt.exprs, Option.toList_some, Expr.nodesAll, Expr.nodes,
            List.append_nil, allValid_cons]
          refine ⟨valid_symbol rfl rfl ?_ hslot, hvalue⟩
          exact List.forall_mem_cons.mpr ⟨rfl, List.forall_mem_singleton.mpr rfl⟩
        have htype : Holds size Ty.Ranked (apply fun table => typeOf table value) :=
          holds_apply fun table htable ty hty => ranked_typeOf htable hvalue hty
        refine Pass.keeps_bind htype fun ty hty => ?_
        refine Pass.keeps_bind Pass.keeps_get fun scope hscope => ?_
        split
        · rw [pure_bind]
          exact holds_setResult hty hret
        next current hcurrent =>
          have hjoin : Holds size Ty.Ranked (apply fun _ => join current ty value.span) :=
            holds_apply fun _ _ widened => ranked_join (hscope.ranked_result hcurrent) hty
          exact Pass.keeps_bind hjoin fun widened hwidened => holds_setResult hwidened hret

/-- The binding of the result is looked up before what comes next. -/
theorem tracks_slot_bind {α : Type} {good : Nat → α → Prop} {guarded : Guarded Infer α}
    {pass : Infer α} (hrest : Tracks size good guarded pass) :
    Tracks size good (do
      Guarded.lookUp (← get).symbols [Scope.resultSlot]
      guarded) pass := by
  intro before hbefore
  rw [Guarded.runState_bind, Guarded.runState_get, pure_bind]
  dsimp only
  rw [Guarded.lookUp_of_lt (List.forall_mem_singleton.mpr hbefore.slot_lt), pure_bind]
  exact hrest before hbefore

theorem tracks_inferReturn {value : Option Expr} (hslot : Scope.resultSlot.index < size)
    (hvalue : AllValid size (Expr.nodesAll value.toList)) :
    Tracks size (fun later stmt => ValidBody later [stmt]) (Guarded.inferReturn span value)
      (inferReturn span value) :=
  tracks_slot_bind (tracks_visit hvalue (holds_inferReturn hslot hvalue))

theorem tracks_inferTest {test : Expr} (hsetting : setting.Ranked) :
    Tracks size (fun later result => AllValid later result.nodes)
      (Guarded.inferTest setting test) (inferTest setting test) := by
  refine tracks_bind (tracked_inferExpr hsetting size) fun later _ test' htest => ?_
  refine tracks_visit_one htest fun table _ result hrule => ?_
  cases hrule
  exact valid_convert htest ranked_bool

theorem tracks_inferPrinted {values : List Expr} (hsetting : setting.Ranked) :
    Tracks size (fun later results => AllValid later (Expr.nodesAll results))
      (Guarded.inferPrinted setting values) (inferPrinted setting values) := by
  induction values generalizing size with
  | nil => exact tracks_pure allValid_nil
  | cons value values ih =>
      refine tracks_bind (tracked_inferExpr hsetting size) fun middle _ value' hvalue => ?_
      have hboxed : Tracks middle (fun later result => AllValid later result.nodes)
          (Guarded.visit [value'] (apply fun table => .ok (value'.convert table .object)))
          (apply fun table => .ok (value'.convert table .object)) := by
        refine tracks_visit_one hvalue fun table _ result hrule => ?_
        cases hrule
        exact valid_convert hvalue ranked_object
      refine tracks_bind hboxed fun next _ value'' hvalue => ?_
      refine tracks_bind ih fun later hlater values' hvalues => ?_
      exact tracks_pure (allValid_append.mpr ⟨hvalue.mono hlater, hvalues⟩)

mutual

/-- Visiting a statement; no loop in it is counted yet. -/
theorem tracks_inferStmt {stmt : Stmt} {size : Nat} (hsetting : setting.Ranked)
    (hplain : ∀ inner ∈ stmt.nested, inner.Uncounted) (hslot : Scope.resultSlot.index < size) :
    Tracks size ValidBody (Guarded.inferStmt setting stmt) (inferStmt setting stmt) := by
  cases stmt with
  | assign span targets value =>
      simp only [Guarded.inferStmt, inferStmt]
      refine tracks_bind (tracked_inferExpr hsetting size) fun later _ value' hvalue => ?_
      exact tracks_inferAssign hsetting hvalue
  | augAssign span target op value =>
      simp only [Guarded.inferStmt, inferStmt]
      refine tracks_bind (tracked_inferExpr hsetting size) fun later _ value' hvalue => ?_
      exact tracks_storeAll hsetting (allValid_one.mpr hvalue)
  | forIn span target iter body orelse index =>
      obtain ⟨rfl, hbodies⟩ := List.forall_mem_cons.mp hplain
      have hbody := (List.forall_mem_append.mp hbodies).1
      simp only [Guarded.inferStmt, inferStmt]
      split
      · exact tracks_refuse
      · split
        · exact tracks_refuse
        · refine tracks_bind (tracked_inferExpr hsetting size) fun first hfirst iter' hiter => ?_
          have helement : Tracks first (fun _ => Ty.Ranked) (Guarded.elementType setting iter')
              (apply (elementType setting iter')) :=
            tracks_of_runs (fun _ hscope => runs_elementType hscope hiter)
              (holds_apply fun table htable element =>
                ranked_elementType hsetting htable hiter)
          refine tracks_bind helement fun second hsecond element helement => ?_
          refine tracks_bind (tracked_inferExpr hsetting second)
            fun third hthird target' htarget => ?_
          have hbind : Tracks third (fun _ _ => True)
              (Guarded.visit [target'] (bindElement target' element))
              (bindElement target' element) :=
            tracks_visit (allValid_one.mpr htarget) (holds_bindElement helement)
          refine tracks_bind hbind fun fourth hfourth _ _ => ?_
          refine tracks_bind (tracks_inferBody hsetting hbody (by omega))
            fun later hlater body' hbody' => ?_
          refine tracks_pure (validBody_singleton ?_ ?_)
          · exact allValid_two.mpr ⟨htarget.mono (by omega), hiter.mono (by omega)⟩
          · exact List.forall_mem_cons.mpr ⟨hbody', List.forall_mem_singleton.mpr validBody_nil⟩
  | whileLoop span test body orelse =>
      have hbody := (List.forall_mem_append.mp (List.forall_mem_cons.mp hplain).2).1
      simp only [Guarded.inferStmt, inferStmt]
      split
      · exact tracks_refuse
      · refine tracks_bind (tracks_inferTest hsetting) fun middle hmiddle test' htest => ?_
        refine tracks_bind (tracks_inferBody hsetting hbody (by omega))
          fun later hlater body' hbody' => ?_
        refine tracks_pure (validBody_singleton ?_ ?_)
        · exact allValid_one.mpr (htest.mono hlater)
        · exact List.forall_mem_cons.mpr ⟨hbody', List.forall_mem_singleton.mpr validBody_nil⟩
  | branch span test body orelse =>
      obtain ⟨hbody, horelse⟩ := List.forall_mem_append.mp (List.forall_mem_cons.mp hplain).2
      simp only [Guarded.inferStmt, inferStmt]
      refine tracks_bind (tracks_inferTest hsetting) fun middle hmiddle test' htest => ?_
      refine tracks_bind (tracks_inferBody hsetting hbody (by omega))
        fun next hnext body' hbody' => ?_
      refine tracks_bind (tracks_inferBody hsetting horelse (by omega))
        fun later hlater orelse' horelse' => ?_
      refine tracks_pure (validBody_singleton ?_ ?_)
      · exact allValid_one.mpr ((htest.mono hnext).mono hlater)
      · exact List.forall_mem_cons.mpr
          ⟨hbody'.mono hlater, List.forall_mem_singleton.mpr horelse'⟩
  | ret span value =>
      simp only [Guarded.inferStmt, inferStmt]
      refine tracks_bind (tracks_inferPart fun e _ => tracked_inferExpr hsetting)
        fun middle hmiddle value' hvalue => ?_
      refine tracks_bind (tracks_inferReturn (by omega) hvalue) fun later _ stmt hstmt => ?_
      exact tracks_pure hstmt
  | expr span value =>
      simp only [Guarded.inferStmt, inferStmt]
      refine tracks_bind (tracked_inferExpr hsetting size) fun later _ value' hvalue => ?_
      exact tracks_pure (validBody_singleton (allValid_one.mpr hvalue) (List.forall_mem_nil _))
  | print span values dest newline =>
      simp only [Guarded.inferStmt, inferStmt]
      refine tracks_bind (tracks_inferPrinted hsetting) fun middle _ values' hvalues => ?_
      refine tracks_bind (tracks_inferPart fun e _ => tracked_inferExpr hsetting)
        fun later hlater dest' hdest => ?_
      refine tracks_pure (validBody_singleton ?_ (List.forall_mem_nil _))
      simp only [Stmt.nodes, Stmt.exprs, Expr.nodesAll_append, allValid_append]
      exact ⟨hdest, hvalues.mono hlater⟩
  | global => exact tracks_refuse
  | _ => exact tracks_pure (validBody_singleton allValid_nil (List.forall_mem_nil _))
termination_by structural stmt

/-- Visiting a body in which no loop is counted yet. -/
theorem tracks_inferBody {body : List Stmt} {size : Nat} (hsetting : setting.Ranked)
    (hplain : ∀ inner ∈ Stmt.nestedBody body, inner.Uncounted)
    (hslot : Scope.resultSlot.index < size) :
    Tracks size ValidBody (Guarded.inferBody setting body) (inferBody setting body) := by
  cases body with
  | nil => exact tracks_pure validBody_nil
  | cons stmt body =>
      obtain ⟨hstmt, hbody⟩ := List.forall_mem_append.mp hplain
      simp only [Guarded.inferBody, inferBody]
      refine tracks_bind (tracks_inferStmt hsetting hstmt hslot)
        fun middle hmiddle stmts hstmts => ?_
      refine tracks_bind (tracks_inferBody hsetting hbody (by omega))
        fun later hlater rest hrest => ?_
      exact tracks_pure (validBody_append (hstmts.mono hlater) hrest)
termination_by structural body

end

end Statements

/-! ## Functions -/

theorem valid_ofFunction {func : FunctionDef} {args : List Ty} (hargs : ∀ ty ∈ args, ty.Ranked) :
    (Scope.ofFunction func args).Valid 1 := by
  have hdeclare {vars : List Variable} {scope : Scope} (hscope : scope.Valid 1)
      (hvars : ∀ var ∈ vars, var.Valid) : (vars.foldl Scope.declare scope).Valid 1 := by
    induction vars generalizing scope with
    | nil => exact hscope
    | cons var vars ih =>
        obtain ⟨hvar, hvars⟩ := List.forall_mem_cons.mp hvars
        exact ih ((hscope.insert hvar).mono (Nat.le_add_left 1 _)) hvars
  have huntyped {var : Variable} (hty : var.ty = none) (hvalue : var.constantValue = none) :
      var.Valid := by
    refine Variable.valid_of_ranked ?_ hvalue
    rw [hty]
    exact fun ty hmem => absurd hmem (Option.not_mem_none ty)
  have hinitial : Scope.initial.Valid 1 := by
    refine ⟨List.forall_mem_singleton.mpr (huntyped rfl rfl), fun hentry => ?_, ⟨{}, rfl, rfl⟩,
      Nat.le_refl 1⟩
    cases hentry
  refine hdeclare hinitial fun var hvar => ?_
  simp only [List.mem_append, List.mem_map, List.mem_singleton] at hvar
  rcases hvar with (⟨⟨name, ty⟩, hparam, rfl⟩ | ⟨name, _, rfl⟩) | rfl
  · refine Variable.valid_of_ranked ?_ rfl
    rintro _ ⟨⟩
    exact hargs ty (List.of_mem_zip hparam).2
  · exact huntyped rfl rfl
  · refine ⟨?_, fun _ => rfl⟩
    rintro _ ⟨⟩
    exact ranked_object

theorem holds_settleResult {declared : Option Ty}
    (hdeclared : ∀ ty, declared = some ty → ty.Ranked) :
    Holds size Ty.Ranked (settleResult declared span) := by
  have hset {ty : Ty} (hty : ty.Ranked) : Holds size Ty.Ranked (do
      modify fun scope => scope.setType Scope.resultSlot ty
      pure ty) := holds_setResult hty hty
  refine Pass.keeps_bind Pass.keeps_get fun scope hscope => ?_
  split
  · rw [pure_bind]
    exact hset (hdeclared _ rfl)
  · rw [pure_bind]
    exact hset (Ty.ranked_of_layouts rfl)
  next found declared hfound =>
    have hranked := hscope.ranked_result hfound
    split
    · rw [pure_bind]
      exact hset hranked
    · have hjoin : Holds size Ty.Ranked (apply fun _ => join declared found span) :=
        holds_apply fun _ _ _ => ranked_join (hdeclared _ rfl) hranked
      exact Pass.keeps_bind hjoin fun _ => hset
  next hfound =>
    rw [pure_bind]
    exact hset (hscope.ranked_result hfound)

/-- What inference leaves of a function: ranked types, valid bindings and a valid body. -/
structure Inferred.Valid (func : FunctionDef) (inferred : Inferred) : Prop where
  signature : inferred.signature.Ranked
  symbols : inferred.symbols.Valid
  body : ValidBody inferred.symbols.size inferred.func.body
  temps : inferred.func.temps = func.temps
  errorReturn : inferred.func.errorReturn = func.errorReturn

/-- Inferring a function in which no loop is counted yet. -/
theorem faultless_inferFunction {func : FunctionDef} {signature : Signature}
    (hsetting : setting.Ranked) (hplain : ∀ stmt ∈ func.statements, stmt.Uncounted)
    (hsignature : signature.Ranked) :
    Faultless Resolution.Ranked (Inferred.Valid func)
      (Guarded.inferFunction setting func signature) (inferFunction setting func signature) := by
  have hinfer : Tracks 1
      (fun later result => ValidBody later result.1 ∧ result.2.Ranked) (do
        let body ← Guarded.inferBody setting func.body
        Guarded.lookUp (← get).symbols [Scope.resultSlot]
        let ret ← ExceptT.lift (settleResult signature.ret func.span)
        pure (body, ret)) (do
        let body ← inferBody setting func.body
        let ret ← settleResult signature.ret func.span
        pure (body, ret)) := by
    refine tracks_bind (tracks_inferBody hsetting hplain Nat.zero_lt_one)
      fun middle _ body hbody => ?_
    have hsettle : Tracks middle (fun _ => Ty.Ranked)
        (ExceptT.lift (settleResult signature.ret func.span))
        (settleResult signature.ret func.span) :=
      tracks_lift (holds_settleResult hsignature.ret)
    refine tracks_slot_bind (tracks_bind hsettle fun later hlater ret hret => ?_)
    exact tracks_pure ⟨hbody.mono hlater, hret⟩
  unfold Guarded.inferFunction inferFunction
  split
  · have hrefused : Pass.Obeys Contract.ranked (Inferred.Valid func)
        (throw ⟨.arityMismatch func.name func.args.length signature.args.length, func.span⟩) :=
      Pass.obeys_throw
    exact Guarded.faultless_lift hrefused
  · refine Guarded.faultless_bind (hinfer _ (valid_ofFunction hsignature.args)) ?_
    rintro ⟨⟨body, ret⟩, scope⟩ ⟨later, _, hscope, hbody, hret⟩
    exact Guarded.faultless_bind Guarded.faultless_report fun _ _ => Guarded.faultless_pure
      ⟨⟨hsignature.args, hret⟩, hscope.symbols, hbody.mono hscope.covers, rfl, rfl⟩

end Inference

end KernelFront
