import KernelFront.Proofs.Inference.Questions
import KernelFront.Proofs.Inference.Results

/-! # What inference leaves

A walk over a function of the source: every expression of its result is one that inference is done
with, an augmented assignment became a plain one, loops have no `else` body, and what a statement
stores to is marked as written. Of the answers to the questions of the walk, only the doubles in
the types of entry points matter.
-/

namespace KernelFront

theorem Expr.IsPlace.access {e : Expr} {access : Access} (hplace : e.IsPlace access) :
    e.access = access := by
  cases hplace <;> rfl

namespace Stmt

/-- No choice is left open: stores are plain, to places that are marked as written, and loops have
no `else` body. -/
def IsResolved : Stmt → Prop
  | .assign _ targets _ => ∀ target ∈ targets, target.access = .store
  | .augAssign _ _ _ _ | .global _ _ => False
  | .forIn _ target _ _ orelse _ => target.access = .store ∧ orelse = []
  | .whileLoop _ _ _ orelse => orelse = []
  | _ => True

/-- A statement that inference is done with, its bodies apart. -/
structure IsInferred (p : Binary64 → Prop) (stmt : Stmt) : Prop where
  nodes : Inference.AllInferred p stmt.nodes
  resolved : stmt.IsResolved

end Stmt

/-- The doubles in the type of an entry point have the property. -/
def Resolution.HasDoubles (p : Binary64 → Prop) : Resolution → Prop
  | .native entry => DoublesIn p entry.signature.scalars
  | .host => True

/-- Anything may be asked, and entry points have types with such doubles only. -/
def Contract.answering (p : Binary64 → Prop) : Contract :=
  ⟨fun _ _ => True, Resolution.HasDoubles p⟩

namespace Inference

variable {p : Binary64 → Prop} {setting : Setting} {span : Span}

/-- The doubles in all bindings of a scope have the property. -/
structure Scope.HasDoubles (p : Binary64 → Prop) (scope : Scope) : Prop where
  symbols : scope.symbols.HasDoubles p
  natives : ∀ {name entry}, scope.natives.lookup name = some entry →
    DoublesIn p entry.signature.scalars

/-- The pass has good results and keeps the property of the doubles in the scope. -/
abbrev Leaves {α : Type} (p : Binary64 → Prop) (good : α → Prop) (pass : Infer α) : Prop :=
  Pass.Keeps (Contract.answering p) (Scope.HasDoubles p) good pass

theorem leaves_apply {α : Type} {good : α → Prop} {rule : SymbolTable → Except TypeError α}
    (hrule : ∀ table : SymbolTable, table.HasDoubles p →
      ∀ result, rule table = .ok result → good result) :
    Leaves p good (apply rule) :=
  keeps_apply fun scope hscope => hrule scope.symbols hscope.symbols

/-- What a visited expression became. -/
structure Visit (p : Binary64 → Prop) (source result : Expr) : Prop where
  nodes : AllInferred p result.nodes
  stored : source.access = .store → result.access = .store

/-- Statements became statements that inference is done with, at every depth. -/
abbrev Done (p : Binary64 → Prop) (stmts : List Stmt) : Prop :=
  ∀ stmt ∈ Stmt.nestedBody stmts, stmt.IsInferred p

/-! ## Scopes -/

theorem Scope.HasDoubles.insert {scope : Scope} {var : Variable} (hscope : scope.HasDoubles p)
    (hvar : DoublesIn p var.scalars) :
    Scope.HasDoubles p { scope with symbols := (scope.symbols.insert var).2 } := by
  refine ⟨fun other hother => ?_, hscope.natives⟩
  rcases List.mem_append.mp hother with hold | hnew
  · exact hscope.symbols other hold
  · rwa [List.mem_singleton.mp hnew]

theorem Scope.HasDoubles.setType {scope : Scope} {ty : Ty} (hscope : scope.HasDoubles p)
    (hty : DoublesIn p ty.scalars) (id : SymbolId) : (scope.setType id ty).HasDoubles p := by
  refine ⟨fun var hvar => ?_, hscope.natives⟩
  simp only [Scope.setType, SymbolTable.setType] at hvar
  obtain ⟨index, hindex, rfl⟩ := List.mem_iff_getElem.mp hvar
  rw [List.getElem_modify]
  have hold := hscope.symbols _ (List.getElem_mem (by simpa using hindex))
  split
  · simp only [Variable.scalars, Option.toList_some, List.flatMap_singleton, doublesIn_append]
      at hold ⊢
    exact ⟨hty, hold.2⟩
  · exact hold

theorem Scope.HasDoubles.result {scope : Scope} {ty : Ty} (hscope : scope.HasDoubles p)
    (hresult : scope.resultType? = some ty) : DoublesIn p ty.scalars := by
  obtain ⟨var, hvar, hty⟩ := Option.bind_eq_some_iff.mp hresult
  exact Variable.doublesIn_ty (hscope.symbols.get? hvar) hty

/-! ## Names and calls -/

theorem leaves_bindFree {name : String} (hsetting : setting.HasDoubles p) :
    Leaves p (fun _ => True) (bindFree setting name) := by
  have hbind {ty : Ty} (hty : DoublesIn p ty.scalars) : Leaves p (fun _ => True) (do
      report ("[infer] free name `" ++ name ++ "` is " ++ ty.text)
      let inserted := (← get).symbols.insert (.globalNamed name ty)
      modify fun scope => { scope with symbols := inserted.2 }
      pure inserted.1) := by
    refine keeps_report_bind (Pass.keeps_bind Pass.keeps_get fun scope hscope => ?_)
    have hvar : DoublesIn p (Variable.globalNamed name ty).scalars := by
      simpa [Variable.globalNamed, Variable.scalars] using hty
    have hinsert := hscope.insert hvar
    exact keeps_modify_bind (fun before hbefore => ⟨hinsert.symbols, hbefore.natives⟩)
      (Pass.keeps_pure trivial)
  simp only [bindFree, pure_bind]
  cases hkind : setting.names.lookup name with
  | builtin => exact hbind doublesIn_nil
  | module owner isNumpy => exact hbind doublesIn_nil
  | global => exact hbind doublesIn_nil
  | native entry =>
      have hentry := hsetting.native hkind
      refine keeps_modify_bind (fun before hbefore => ⟨hbefore.symbols, ?_⟩) (hbind ?_)
      · intro other found hfound
        rw [List.lookup_cons] at hfound
        split at hfound
        · cases hfound
          exact hentry
        · exact hbefore.natives hfound
      · rw [Ty.scalars]
        exact hentry

theorem leaves_visitName {name : String} {access : Access} (hsetting : setting.HasDoubles p) :
    Leaves p (fun result => AllInferred p result.nodes ∧ result.access = access)
      (visitName setting name access span) := by
  have hname (id : SymbolId) :
      AllInferred p (Expr.name { span, binding := some (.symbol id) } name access).nodes ∧
        (Expr.name { span, binding := some (.symbol id) } name access).access = access := by
    simp only [Expr.nodes, allInferred_cons, allInferred_nil, and_true]
    exact ⟨⟨rfl, trivial, Bool.noConfusion, doublesIn_note_symbol, doublesIn_nil⟩, rfl⟩
  unfold visitName
  refine Pass.keeps_bind Pass.keeps_get fun scope _ => ?_
  dsimp only
  split
  · split
    · have hrefuse : Leaves p (fun _ => True) (refuse (α := SymbolId) (.unboundLocal name) span) :=
        Pass.keeps_throw
      exact Pass.keeps_bind hrefuse fun id _ => Pass.keeps_pure (hname id)
    · exact Pass.keeps_pure (hname _)
  · exact Pass.keeps_bind (leaves_bindFree hsetting) fun id _ => Pass.keeps_pure (hname id)

section Calls

variable {func : Expr} {args : List Expr} {keywords : List (String × Expr)}

theorem leaves_directCall {entry : EntryPoint} (hentry : DoublesIn p entry.signature.scalars)
    (hargs : AllInferred p (Expr.nodesAll args)) :
    Leaves p (fun result => AllInferred p result.nodes) (apply (directCall span entry args)) :=
  leaves_apply fun _ _ _ => inferred_directCall hentry hargs

theorem leaves_typeExternalCall {ty : SymbolTable → Ty} (callee : String)
    (hparts : AllInferred p (callNodes func args keywords))
    (hty : ∀ table : SymbolTable, table.HasDoubles p → DoublesIn p (ty table).scalars) :
    Leaves p (fun result => AllInferred p result.nodes)
      (typeExternalCall span callee func args keywords ty) := by
  have hhost : Leaves p (fun result : Expr => AllInferred p result.nodes) (do
      report ("[infer] `" ++ callee ++ "` called through the object protocol")
      apply fun table => .ok (hostCall span func args keywords (ty table) table)) := by
    refine keeps_report_bind (leaves_apply fun table htable result hrule => ?_)
    cases hrule
    exact inferred_hostCall (hty table htable) hparts
  have hargs : AllInferred p (Expr.nodesAll args) := by
    simp only [callNodes, allInferred_append] at hparts
    exact hparts.1.2
  unfold typeExternalCall
  dsimp only
  split
  · have htypes : Leaves p (fun _ => True) (apply fun table => args.mapM (typeOf table)) :=
      leaves_apply fun _ _ _ _ => trivial
    refine Pass.keeps_bind htypes fun types _ => ?_
    have hquestion : Pass.Obeys (Contract.answering p) (Contract.answering p).answer
        (Pass.ask callee types) := Pass.obeys_ask trivial
    refine Pass.keeps_bind (Pass.keeps_lift hquestion) fun answer hanswer => ?_
    cases answer with
    | host => exact hhost
    | native entry => exact keeps_report_bind (leaves_directCall hanswer hargs)
  · exact hhost

theorem leaves_typeCall (hsetting : setting.HasDoubles p)
    (hparts : AllInferred p (callNodes func args keywords)) :
    Leaves p (fun result => AllInferred p result.nodes)
      (typeCall setting span func args keywords) := by
  have hhost : Leaves p (fun result : Expr => AllInferred p result.nodes)
      (apply fun table => .ok (hostCall span func args keywords .object table)) := by
    refine leaves_apply fun table _ result hrule => ?_
    cases hrule
    exact inferred_hostCall doublesIn_object hparts
  have hsplit := hparts
  simp only [callNodes, allInferred_append] at hsplit
  obtain ⟨⟨-, hargs⟩, hkeywords⟩ := hsplit
  have htype : Leaves p (fun _ => True) (apply fun table => typeOf table func) :=
    leaves_apply fun _ _ _ _ => trivial
  unfold typeCall
  refine Pass.keeps_bind htype fun ty _ => ?_
  split
  · exact leaves_apply fun _ _ _ => inferred_typeBuiltinCall hsetting hargs
  · split
    · refine Pass.keeps_bind Pass.keeps_get fun scope hscope => ?_
      dsimp only
      split
      · rename_i hentry
        obtain ⟨name, -, hentry⟩ := Option.bind_eq_some_iff.mp hentry
        exact leaves_directCall (hscope.natives hentry) hargs
      · exact Pass.keeps_throw
    · exact hhost
  · exact leaves_typeExternalCall _ hparts fun _ _ => doublesIn_object
  · refine leaves_typeExternalCall _ hparts fun table htable => ?_
    split
    · exact doublesIn_arrayFunctionType htable hargs hkeywords
    · exact doublesIn_object
  · exact hhost

end Calls

/-! ## Expressions -/

section Stored

variable {table : SymbolTable} {value selector result : Expr} {attr : String} {access : Access}

/-- Attributes that are found out at run time cannot be written. -/
theorem access_typeAttribute
    (hrule : typeAttribute setting span value attr .store table = .ok result) :
    result.access = .store := by
  cases attributeOutcome_of_ok hrule with
  | known => rfl
  | metadata _ _ haccess => exact absurd rfl haccess
  | dynamic haccess => cases haccess

theorem access_typeSubscript
    (hrule : typeSubscript span value selector access table = .ok result) :
    result.access = access := by
  cases subscriptOutcome_of_ok hrule <;> rfl

end Stored

/-- Visited expressions, one after the other. -/
theorem leaves_inferAll {es : List Expr}
    (heach : ∀ e ∈ es, Leaves p (Visit p e) (inferExpr setting e)) :
    Leaves p (fun results => AllInferred p (Expr.nodesAll results) ∧ results.length = es.length)
      (inferAll setting es) := by
  induction es with
  | nil => exact Pass.keeps_pure ⟨allInferred_nil, rfl⟩
  | cons e es ih =>
      obtain ⟨he, hes⟩ := List.forall_mem_cons.mp heach
      refine Pass.keeps_bind he fun result hresult => ?_
      refine Pass.keeps_bind (ih hes) ?_
      rintro results ⟨hresults, hlength⟩
      exact Pass.keeps_pure
        ⟨allInferred_append.mpr ⟨hresult.nodes, hresults⟩, congrArg Nat.succ hlength⟩

theorem leaves_inferKeywords {keywords : List (String × Expr)}
    (heach : ∀ e ∈ keywords.map Prod.snd, Leaves p (Visit p e) (inferExpr setting e)) :
    Leaves p (fun results => AllInferred p (Expr.nodesAll (results.map Prod.snd)))
      (inferKeywords setting keywords) := by
  induction keywords with
  | nil => exact Pass.keeps_pure allInferred_nil
  | cons keyword keywords ih =>
      obtain ⟨he, hes⟩ := List.forall_mem_cons.mp heach
      refine Pass.keeps_bind he fun result hresult => ?_
      refine Pass.keeps_bind (ih hes) fun results hresults => ?_
      exact Pass.keeps_pure (allInferred_append.mpr ⟨hresult.nodes, hresults⟩)

theorem leaves_inferPart {part : Option Expr}
    (heach : ∀ e ∈ part.toList, Leaves p (Visit p e) (inferExpr setting e)) :
    Leaves p (fun result => AllInferred p (Expr.nodesPart result)) (inferPart setting part) := by
  cases part with
  | none => exact Pass.keeps_pure allInferred_nil
  | some e =>
      refine Pass.keeps_bind (heach e (List.mem_singleton_self e)) fun result hresult => ?_
      exact Pass.keeps_pure hresult.nodes

/-- A rule for a form that nothing is stored to. -/
theorem visit_of_nodes {source result : Expr} (hsource : source.access = .load)
    (hnodes : AllInferred p result.nodes) : Visit p source result := by
  refine ⟨hnodes, fun hstored => ?_⟩
  rw [hsource] at hstored
  cases hstored

/-- The doubles of the literals of an expression. -/
abbrev LiteralDoubles (p : Binary64 → Prop) (e : Expr) : Prop :=
  ∀ node ∈ e.nodes, DoublesIn p node.formScalars

theorem literalDoubles_part {e part : Expr} (he : LiteralDoubles p e) (hpart : part ∈ e.children) :
    LiteralDoubles p part :=
  fun node hnode => he node (Expr.mem_nodes_of_part hpart hnode)

/-- Visiting an expression of the source. -/
theorem leaves_inferExpr {e : Expr} (hsetting : setting.HasDoubles p) (he : LiteralDoubles p e) :
    Leaves p (Visit p e) (inferExpr setting e) := by
  induction e using Expr.induct with
  | hstep e ih =>
      have hparts : ∀ part ∈ e.children, Leaves p (Visit p part) (inferExpr setting part) :=
        fun part hpart => ih part hpart (literalDoubles_part he hpart)
      cases e with
      | name note id access =>
          simp only [inferExpr]
          exact Pass.keeps_mono (fun _ hname => ⟨hname.1, hname.2.trans⟩) (leaves_visitName hsetting)
      | const note value =>
          exact Pass.keeps_pure (visit_of_nodes rfl (inferred_literal (he _ List.mem_cons_self)))
      | ellipsis note =>
          refine Pass.keeps_pure (visit_of_nodes rfl ?_)
          simp only [Expr.nodes, allInferred_cons, allInferred_nil, and_true]
          exact inferred_value rfl trivial rfl (doublesIn_note_value doublesIn_nil) doublesIn_nil
      | binOp note left op right =>
          simp only [inferExpr]
          refine Pass.keeps_bind (hparts left List.mem_cons_self) fun left' hleft => ?_
          refine Pass.keeps_bind (hparts right (by simp [Expr.children])) fun right' hright => ?_
          exact leaves_apply fun table htable result hrule =>
            visit_of_nodes rfl (inferred_typeBinOp htable hleft.nodes hright.nodes hrule)
      | boolOp note op values =>
          simp only [inferExpr]
          split
          · exact Pass.keeps_throw
          · rename_i htwo
            refine Pass.keeps_bind (leaves_inferAll hparts) ?_
            rintro values' ⟨hvalues, hlength⟩
            refine leaves_apply fun table _ result hrule => ?_
            cases hrule
            exact visit_of_nodes rfl
              (inferred_typeBoolOp (hlength.trans (Decidable.not_not.mp htwo)) hvalues)
      | unaryOp note op operand =>
          simp only [inferExpr]
          refine Pass.keeps_bind (hparts operand List.mem_cons_self) fun operand' hoperand => ?_
          exact leaves_apply fun table htable result hrule =>
            visit_of_nodes rfl (inferred_typeUnaryOp htable hoperand.nodes hrule)
      | compare note left ops comparators =>
          rcases ops with _ | ⟨op, _ | ⟨_, _⟩⟩
          · simp only [inferExpr]
            exact Pass.keeps_throw
          · rcases comparators with _ | ⟨right, _ | ⟨_, _⟩⟩
            · simp only [inferExpr]
              exact Pass.keeps_throw
            · simp only [inferExpr]
              refine Pass.keeps_bind (hparts left List.mem_cons_self) fun left' hleft => ?_
              have hlast := hparts right (by simp [Expr.children])
              refine Pass.keeps_bind hlast fun right' hright => ?_
              exact leaves_apply fun table htable result hrule =>
                visit_of_nodes rfl (inferred_typeCompare htable hleft.nodes hright.nodes hrule)
            · simp only [inferExpr]
              exact Pass.keeps_throw
          · simp only [inferExpr]
            exact Pass.keeps_throw
      | call note func args keywords =>
          obtain ⟨hfunc, hrest⟩ := List.forall_mem_cons.mp hparts
          obtain ⟨hargs, hkeywords⟩ := List.forall_mem_append.mp hrest
          simp only [inferExpr]
          refine Pass.keeps_bind hfunc fun func' hfunc' => ?_
          refine Pass.keeps_bind (leaves_inferAll hargs) ?_
          rintro args' ⟨hargs', _⟩
          refine Pass.keeps_bind (leaves_inferKeywords hkeywords) fun keywords' hkeywords' => ?_
          have hcall : AllInferred p (callNodes func' args' keywords') :=
            allInferred_append.mpr ⟨allInferred_append.mpr ⟨hfunc'.nodes, hargs'⟩, hkeywords'⟩
          exact Pass.keeps_mono (fun _ hnodes => visit_of_nodes rfl hnodes)
            (leaves_typeCall hsetting hcall)
      | «attribute» note value attr access =>
          simp only [inferExpr]
          refine Pass.keeps_bind (hparts value List.mem_cons_self) fun value' hvalue => ?_
          refine leaves_apply fun table htable result hrule =>
            ⟨inferred_typeAttribute hsetting htable hvalue.nodes hrule, fun hstored => ?_⟩
          obtain rfl : access = .store := hstored
          exact access_typeAttribute hrule
      | subscript note value selector access =>
          simp only [inferExpr]
          refine Pass.keeps_bind (hparts value List.mem_cons_self) fun value' hvalue => ?_
          refine Pass.keeps_bind (hparts selector (by simp [Expr.children]))
            fun selector' hselector => ?_
          exact leaves_apply fun table htable result hrule =>
            ⟨inferred_typeSubscript htable hvalue.nodes hselector.nodes hrule,
              (access_typeSubscript hrule).trans⟩
      | index note value =>
          simp only [inferExpr]
          refine Pass.keeps_bind (hparts value List.mem_cons_self) fun value' hvalue => ?_
          exact leaves_apply fun table htable result hrule =>
            visit_of_nodes rfl (inferred_typeIndex htable hvalue.nodes hrule)
      | slice note lower upper step =>
          obtain ⟨hbounds, hstep⟩ := List.forall_mem_append.mp hparts
          obtain ⟨hlower, hupper⟩ := List.forall_mem_append.mp hbounds
          simp only [inferExpr]
          refine Pass.keeps_bind (leaves_inferPart hlower) fun lower' hlower' => ?_
          refine Pass.keeps_bind (leaves_inferPart hupper) fun upper' hupper' => ?_
          refine Pass.keeps_bind (leaves_inferPart hstep) fun step' hstep' => ?_
          refine Pass.keeps_pure (visit_of_nodes rfl ?_)
          simp only [Expr.nodes, allInferred_cons, allInferred_append]
          exact ⟨inferred_typed rfl trivial rfl doublesIn_nil doublesIn_nil, ⟨hlower', hupper'⟩,
            hstep'⟩
      | extSlice note dims =>
          simp only [inferExpr]
          refine Pass.keeps_bind (leaves_inferAll hparts) ?_
          rintro dims' ⟨hdims, _⟩
          refine Pass.keeps_pure (visit_of_nodes rfl ?_)
          simp only [Expr.nodes, allInferred_cons]
          exact ⟨inferred_typed rfl trivial rfl doublesIn_object doublesIn_nil, hdims⟩
      | tuple note elts access =>
          simp only [inferExpr]
          refine Pass.keeps_bind (leaves_inferAll hparts) ?_
          rintro elts' ⟨helts, _⟩
          refine leaves_apply fun table htable result hrule => ?_
          cases hrule
          exact ⟨inferred_typeTuple htable helts, id⟩
      | list note elts access =>
          simp only [inferExpr]
          refine Pass.keeps_bind (leaves_inferAll hparts) ?_
          rintro elts' ⟨helts, _⟩
          exact Pass.keeps_pure ⟨inferred_typeList helts, id⟩
      | dict note keys values =>
          obtain ⟨hkeys, hvalues⟩ := List.forall_mem_append.mp hparts
          simp only [inferExpr]
          refine Pass.keeps_bind (leaves_inferAll hkeys) ?_
          rintro keys' ⟨hkeys', _⟩
          refine Pass.keeps_bind (leaves_inferAll hvalues) ?_
          rintro values' ⟨hvalues', _⟩
          refine leaves_apply fun table _ result hrule => ?_
          cases hrule
          exact visit_of_nodes rfl (inferred_typeDict hkeys' hvalues')
      | _ =>
          simp only [inferExpr]
          exact Pass.keeps_throw

/-! ## Statements -/

section Statements

variable {target value : Expr} {targets elements : List Expr}

theorem done_append {first second : List Stmt} (hfirst : Done p first) (hsecond : Done p second) :
    Done p (first ++ second) := by
  rw [Done, Stmt.nestedBody_append]
  exact List.forall_mem_append.mpr ⟨hfirst, hsecond⟩

theorem done_singleton {stmt : Stmt} (hstmt : ∀ inner ∈ stmt.nested, inner.IsInferred p) :
    Done p [stmt] := by
  simpa only [Done, Stmt.nestedBody, List.append_nil] using hstmt

theorem leaves_typeStore (htarget : AllInferred p target.nodes)
    (haccess : target.access = .store) (hvalue : AllInferred p value.nodes) :
    Leaves p (fun stmt => Done p [stmt]) (typeStore target value span) := by
  have hassign {value : Expr} (hvalue : AllInferred p value.nodes) :
      Done p [.assign span [target] value] := by
    have hstored : ∀ place ∈ [target], place.access = .store :=
      List.forall_mem_singleton.mpr haccess
    refine done_singleton (List.forall_mem_singleton.mpr ⟨?_, hstored⟩)
    simp only [Stmt.nodes, Stmt.exprs, List.singleton_append, Expr.nodesAll, List.append_nil,
      allInferred_append]
    exact ⟨htarget, hvalue⟩
  have hsettled {rhs : Ty} : Leaves p (fun stmt => Done p [stmt]) (apply fun table => do
      let lhs ← typeOf table target
      if lhs ≠ rhs then discard (join lhs rhs value.span)
      pure (.assign span [target] (value.convert table lhs))) := by
    refine leaves_apply fun table htable result hrule => ?_
    simp only [bind_eq_ok] at hrule
    obtain ⟨lhs, hlhs, hrule⟩ := hrule
    have hconverted : Done p [.assign span [target] (value.convert table lhs)] :=
      hassign (inferred_convert hvalue (doublesIn_typeOf htable htarget hlhs))
    split at hrule
    · simp only [bind_eq_ok, pure_eq_ok] at hrule
      obtain ⟨_, _, rfl⟩ := hrule
      exact hconverted
    · obtain rfl := pure_eq_ok.mp hrule
      exact hconverted
  unfold typeStore
  refine Pass.keeps_bind Pass.keeps_get fun scope _ => ?_
  have htype : Leaves p (fun ty => DoublesIn p ty.scalars)
      (apply fun table => typeOf table value) :=
    leaves_apply fun table htable ty hty => doublesIn_typeOf htable hvalue hty
  refine Pass.keeps_bind htype fun rhs hrhs => ?_
  dsimp only
  split
  · split
    · exact keeps_modify_bind (fun before hbefore => hbefore.setType hrhs _)
        (Pass.keeps_pure (hassign hvalue))
    · exact hsettled
  · exact hsettled

theorem leaves_storeAll (hsetting : setting.HasDoubles p)
    (htargets : ∀ target ∈ targets, LiteralDoubles p target ∧ target.access = .store)
    (helements : AllInferred p (Expr.nodesAll elements)) :
    Leaves p (Done p) (storeAll setting span targets elements) := by
  induction targets generalizing elements with
  | nil =>
      simp only [storeAll]
      exact Pass.keeps_pure (List.forall_mem_nil _)
  | cons target targets ih =>
      cases elements with
      | nil =>
          simp only [storeAll]
          exact Pass.keeps_pure (List.forall_mem_nil _)
      | cons element elements =>
          obtain ⟨⟨hliterals, hplace⟩, htargets⟩ := List.forall_mem_cons.mp htargets
          obtain ⟨helement, helements⟩ := allInferred_append.mp helements
          simp only [storeAll]
          refine Pass.keeps_bind (leaves_inferExpr hsetting hliterals) fun target' htarget' => ?_
          refine Pass.keeps_bind
            (leaves_typeStore htarget'.nodes (htarget'.stored hplace) helement) fun stmt hstmt => ?_
          refine Pass.keeps_bind (ih htargets helements) fun stmts hstmts => ?_
          exact Pass.keeps_pure (done_append hstmt hstmts)

theorem inferred_unpackedElements {table : SymbolTable} (hsetting : setting.HasDoubles p)
    (htable : table.HasDoubles p) (hvalue : AllInferred p value.nodes)
    (hrule : unpackedElements setting value table = .ok elements) :
    AllInferred p (Expr.nodesAll elements) := by
  simp only [unpackedElements, bind_eq_ok] at hrule
  obtain ⟨ty, hty, hrule⟩ := hrule
  have hty := doublesIn_typeOf htable hvalue hty
  split at hrule
  · cases hrule
    refine allInferred_nodesAll.mpr (List.forall_mem_map.mpr fun i _ => ?_)
    exact inferred_subscript ((Ty.doublesIn_base rfl).mp hty) hvalue
      (inferred_indexConstant hsetting)
  · cases hrule
    exact (allInferred_cons.mp hvalue).2
  · cases hrule
    exact (allInferred_cons.mp hvalue).2
  · split at hrule
    · rename_i items hitems
      cases hrule
      refine allInferred_nodesAll.mpr (List.forall_mem_map.mpr fun item hitem => ?_)
      exact inferred_literal (Ty.doublesIn_item hty hitems hitem)
    · cases hrule

theorem leaves_unpack (hsetting : setting.HasDoubles p)
    (htargets : ∀ target ∈ targets, LiteralDoubles p target ∧ target.access = .store)
    (hvalue : AllInferred p value.nodes) :
    Leaves p (Done p) (unpack setting span targets value) := by
  have hsize : Leaves p (fun _ => True) (apply (unpackedSize value)) :=
    leaves_apply fun _ _ _ _ => trivial
  refine Pass.keeps_bind hsize fun size _ => ?_
  split
  · exact Pass.keeps_throw
  · have helements : Leaves p (fun elements => AllInferred p (Expr.nodesAll elements))
        (apply (unpackedElements setting value)) :=
      leaves_apply fun table htable elements => inferred_unpackedElements hsetting htable hvalue
    exact Pass.keeps_bind helements fun elements helements =>
      leaves_storeAll hsetting htargets helements

theorem leaves_inferAssign (hsetting : setting.HasDoubles p)
    (htargets : ∀ target ∈ targets, LiteralDoubles p target ∧ target.IsPlace .store)
    (hvalue : AllInferred p value.nodes) :
    Leaves p (Done p) (inferAssign setting span targets value) := by
  have hall : ∀ target ∈ targets, LiteralDoubles p target ∧ target.access = .store :=
    fun target htarget => ⟨(htargets target htarget).1, (htargets target htarget).2.access⟩
  unfold inferAssign
  split
  · obtain ⟨hliterals, hplace⟩ := htargets _ List.mem_cons_self
    cases hplace with
    | tuple helts =>
        exact leaves_unpack hsetting
          (fun elt helt => ⟨literalDoubles_part hliterals helt, (helts elt helt).access⟩) hvalue
  · obtain ⟨hliterals, hplace⟩ := htargets _ List.mem_cons_self
    cases hplace with
    | list helts =>
        exact leaves_unpack hsetting
          (fun elt helt => ⟨literalDoubles_part hliterals helt, (helts elt helt).access⟩) hvalue
  · refine leaves_storeAll hsetting hall ?_
    simpa only [Expr.nodesAll, List.append_nil] using hvalue
  · exact leaves_unpack hsetting hall hvalue

theorem doublesIn_elementType {iter : Expr} {table : SymbolTable} {element : Ty}
    (hsetting : setting.HasDoubles p) (htable : table.HasDoubles p)
    (hiter : AllInferred p iter.nodes) (hrule : elementType setting iter table = .ok element) :
    DoublesIn p element.scalars := by
  simp only [elementType, bind_eq_ok] at hrule
  obtain ⟨ty, hty, hrule⟩ := hrule
  have hty := doublesIn_typeOf htable hiter hty
  split at hrule
  · cases hrule
    exact hsetting.index
  · split at hrule <;> cases hrule
    · exact Ty.doublesIn_array.mp hty
    · exact Ty.doublesIn_array.mpr (Ty.doublesIn_array.mp hty)
  · cases hrule

theorem leaves_bindElement {element : Ty} (helement : DoublesIn p element.scalars) :
    Leaves p (fun _ => True) (bindElement target element) := by
  refine Pass.keeps_bind Pass.keeps_get fun scope _ => ?_
  dsimp only
  split
  · split
    · exact Pass.keeps_modify fun before hbefore => hbefore.setType helement _
    · exact leaves_apply fun _ _ _ _ => trivial
  · exact leaves_apply fun _ _ _ _ => trivial

theorem leaves_setResult {α : Type} {ty : Ty} {result : α} {good : α → Prop}
    (hty : DoublesIn p ty.scalars) (hresult : good result) : Leaves p good (do
      modify fun scope => scope.setType Scope.resultSlot ty
      pure result) :=
  keeps_modify_bind (fun _ hbefore => hbefore.setType hty _) (Pass.keeps_pure hresult)

theorem leaves_inferReturn {value : Option Expr} (hvalue : AllInferred p (Expr.nodesPart value)) :
    Leaves p (fun stmt => Done p [stmt]) (inferReturn span value) := by
  have hnothing : Leaves p (fun stmt => Done p [stmt]) (returnNothing span) := by
    have hret : Done p [.ret span none] :=
      done_singleton (List.forall_mem_singleton.mpr ⟨allInferred_nil, trivial⟩)
    refine Pass.keeps_bind Pass.keeps_get fun scope _ => ?_
    split
    · exact leaves_setResult doublesIn_nil hret
    · exact leaves_setResult doublesIn_nil hret
    · exact Pass.keeps_throw
  cases value with
  | none => exact hnothing
  | some value =>
      refine Pass.keeps_bind Pass.keeps_get fun scope _ => ?_
      split
      · exact hnothing
      · have hret : Done p [.ret span (some (.deferredCoercion
            { span := value.span, binding := some (.symbol Scope.resultSlot) } value
            Scope.resultSlot))] := by
          refine done_singleton (List.forall_mem_singleton.mpr ⟨?_, trivial⟩)
          simp only [Stmt.nodes, Stmt.exprs, Option.toList_some, Expr.nodesAll, Expr.nodes,
            List.append_nil, allInferred_cons]
          refine ⟨⟨rfl, trivial, Bool.noConfusion, doublesIn_note_symbol, ?_⟩, hvalue⟩
          simp [Expr.formScalars, SymbolId.scalars]
        have htype : Leaves p (fun ty => DoublesIn p ty.scalars)
            (apply fun table => typeOf table value) :=
          leaves_apply fun table htable ty hty => doublesIn_typeOf htable hvalue hty
        refine Pass.keeps_bind htype fun ty hty => ?_
        refine Pass.keeps_bind Pass.keeps_get fun scope hscope => ?_
        split
        · rw [pure_bind]
          exact leaves_setResult hty hret
        · have hjoin : Leaves p (fun widened => DoublesIn p widened.scalars)
              (apply fun _ => join _ ty value.span) :=
            leaves_apply fun _ _ widened => doublesIn_join (hscope.result ‹_›) hty
          exact Pass.keeps_bind hjoin fun widened hwidened => leaves_setResult hwidened hret

theorem leaves_inferTest {test : Expr} (hsetting : setting.HasDoubles p)
    (htest : LiteralDoubles p test) :
    Leaves p (fun result => AllInferred p result.nodes) (inferTest setting test) := by
  refine Pass.keeps_bind (leaves_inferExpr hsetting htest) fun test' htest' => ?_
  refine leaves_apply fun table _ result hrule => ?_
  cases hrule
  exact inferred_convert htest'.nodes doublesIn_bool

theorem leaves_inferPrinted {values : List Expr} (hsetting : setting.HasDoubles p)
    (hvalues : ∀ value ∈ values, LiteralDoubles p value) :
    Leaves p (fun results => AllInferred p (Expr.nodesAll results))
      (inferPrinted setting values) := by
  induction values with
  | nil => exact Pass.keeps_pure allInferred_nil
  | cons value values ih =>
      obtain ⟨hvalue, hvalues⟩ := List.forall_mem_cons.mp hvalues
      refine Pass.keeps_bind (leaves_inferExpr hsetting hvalue) fun value' hvalue' => ?_
      have hboxed : Leaves p (fun result => AllInferred p result.nodes)
          (apply fun table => .ok (value'.convert table .object)) := by
        refine leaves_apply fun table _ result hrule => ?_
        cases hrule
        exact inferred_convert hvalue'.nodes doublesIn_object
      refine Pass.keeps_bind hboxed fun value'' hvalue'' => ?_
      refine Pass.keeps_bind (ih hvalues) fun values' hvalues' => ?_
      exact Pass.keeps_pure (allInferred_append.mpr ⟨hvalue'', hvalues'⟩)

/-- A statement of the source with such literals, the statements in its bodies apart. -/
structure SourceStmt (p : Binary64 → Prop) (stmt : Stmt) : Prop where
  source : stmt.IsSource
  literals : ∀ e ∈ stmt.exprs, LiteralDoubles p e

mutual

/-- Visiting a statement of the source. -/
theorem leaves_inferStmt {stmt : Stmt} (hsetting : setting.HasDoubles p)
    (hsource : ∀ inner ∈ stmt.nested, SourceStmt p inner) :
    Leaves p (Done p) (inferStmt setting stmt) := by
  cases stmt with
  | assign span targets value =>
      obtain ⟨⟨hplaces, _⟩, hliterals⟩ := hsource _ List.mem_cons_self
      obtain ⟨htargets, hvalue⟩ := List.forall_mem_append.mp hliterals
      simp only [inferStmt]
      refine Pass.keeps_bind (leaves_inferExpr hsetting (hvalue value List.mem_cons_self))
        fun value' hvalue' => ?_
      exact leaves_inferAssign hsetting
        (fun target htarget => ⟨htargets target htarget, hplaces target htarget⟩) hvalue'.nodes
  | augAssign span target op value =>
      obtain ⟨⟨hplace, _⟩, hliterals⟩ := hsource _ List.mem_cons_self
      have htarget := hliterals target List.mem_cons_self
      have hvalue := hliterals value (by simp [Stmt.exprs])
      have hop : LiteralDoubles p (.binOp { span } (target.withAccess .load) op value) := by
        have hcurrent : LiteralDoubles p (target.withAccess .load) := by
          unfold LiteralDoubles at htarget ⊢
          rw [Expr.nodes_eq] at htarget ⊢
          rw [Expr.children_withAccess, List.forall_mem_cons]
          obtain ⟨hself, hparts⟩ := List.forall_mem_cons.mp htarget
          refine ⟨?_, hparts⟩
          cases target <;> exact hself
        unfold LiteralDoubles
        rw [Expr.nodes]
        exact List.forall_mem_cons.mpr
          ⟨doublesIn_nil, List.forall_mem_append.mpr ⟨hcurrent, hvalue⟩⟩
      simp only [inferStmt]
      refine Pass.keeps_bind (leaves_inferExpr hsetting hop) fun value' hvalue' => ?_
      refine leaves_storeAll hsetting
        (List.forall_mem_singleton.mpr ⟨htarget, hplace.access⟩) ?_
      simpa only [Expr.nodesAll, List.append_nil] using hvalue'.nodes
  | forIn span target iter body orelse index =>
      obtain ⟨⟨hplace, _, rfl⟩, hliterals⟩ := hsource _ List.mem_cons_self
      have hbody := (List.forall_mem_append.mp (List.forall_mem_cons.mp hsource).2).1
      have hiter := hliterals iter (by simp [Stmt.exprs])
      simp only [inferStmt]
      split
      · exact Pass.keeps_throw
      · split
        · exact Pass.keeps_throw
        · refine Pass.keeps_bind (leaves_inferExpr hsetting hiter) fun iter' hiter' => ?_
          have helement : Leaves p (fun element => DoublesIn p element.scalars)
              (apply (elementType setting iter')) :=
            leaves_apply fun table htable element =>
              doublesIn_elementType hsetting htable hiter'.nodes
          refine Pass.keeps_bind helement fun element helement => ?_
          refine Pass.keeps_bind (leaves_inferExpr hsetting (hliterals target List.mem_cons_self))
            fun target' htarget' => ?_
          refine Pass.keeps_bind (leaves_bindElement helement) fun _ _ => ?_
          refine Pass.keeps_bind (leaves_inferBody hsetting hbody) fun body' hbody' => ?_
          refine Pass.keeps_pure (done_singleton (List.forall_mem_cons.mpr
            ⟨⟨?_, htarget'.stored hplace.access, rfl⟩, ?_⟩))
          · simp only [Stmt.nodes, Stmt.exprs, Option.toList_none, Expr.nodesAll, List.append_nil,
              allInferred_append]
            exact ⟨htarget'.nodes, hiter'.nodes⟩
          · simpa only [Stmt.nestedBody, List.append_nil] using hbody'
  | whileLoop span test body orelse =>
      obtain ⟨_, hliterals⟩ := hsource _ List.mem_cons_self
      have hbody := (List.forall_mem_append.mp (List.forall_mem_cons.mp hsource).2).1
      simp only [inferStmt]
      split
      · exact Pass.keeps_throw
      · refine Pass.keeps_bind (leaves_inferTest hsetting (hliterals test List.mem_cons_self))
          fun test' htest' => ?_
        refine Pass.keeps_bind (leaves_inferBody hsetting hbody) fun body' hbody' => ?_
        refine Pass.keeps_pure (done_singleton (List.forall_mem_cons.mpr ⟨⟨?_, rfl⟩, ?_⟩))
        · simpa only [Stmt.nodes, Stmt.exprs, Expr.nodesAll, List.append_nil] using htest'
        · simpa only [Stmt.nestedBody, List.append_nil] using hbody'
  | branch span test body orelse =>
      obtain ⟨_, hliterals⟩ := hsource _ List.mem_cons_self
      obtain ⟨hbody, horelse⟩ := List.forall_mem_append.mp (List.forall_mem_cons.mp hsource).2
      simp only [inferStmt]
      refine Pass.keeps_bind (leaves_inferTest hsetting (hliterals test List.mem_cons_self))
        fun test' htest' => ?_
      refine Pass.keeps_bind (leaves_inferBody hsetting hbody) fun body' hbody' => ?_
      refine Pass.keeps_bind (leaves_inferBody hsetting horelse) fun orelse' horelse' => ?_
      refine Pass.keeps_pure (done_singleton (List.forall_mem_cons.mpr ⟨⟨?_, trivial⟩, ?_⟩))
      · simpa only [Stmt.nodes, Stmt.exprs, Expr.nodesAll, List.append_nil] using htest'
      · exact List.forall_mem_append.mpr ⟨hbody', horelse'⟩
  | ret span value =>
      obtain ⟨_, hliterals⟩ := hsource _ List.mem_cons_self
      simp only [inferStmt]
      refine Pass.keeps_bind
        (leaves_inferPart fun e he => leaves_inferExpr hsetting (hliterals e he))
        fun value' hvalue' => ?_
      exact Pass.keeps_bind (leaves_inferReturn hvalue') fun stmt hstmt => Pass.keeps_pure hstmt
  | expr span value =>
      obtain ⟨_, hliterals⟩ := hsource _ List.mem_cons_self
      simp only [inferStmt]
      refine Pass.keeps_bind (leaves_inferExpr hsetting (hliterals value List.mem_cons_self))
        fun value' hvalue' => ?_
      refine Pass.keeps_pure (done_singleton (List.forall_mem_singleton.mpr ⟨?_, trivial⟩))
      simpa only [Stmt.nodes, Stmt.exprs, Expr.nodesAll, List.append_nil] using hvalue'.nodes
  | print span values dest newline =>
      obtain ⟨_, hliterals⟩ := hsource _ List.mem_cons_self
      obtain ⟨hdest, hvalues⟩ := List.forall_mem_append.mp hliterals
      simp only [inferStmt]
      refine Pass.keeps_bind (leaves_inferPrinted hsetting hvalues) fun values' hvalues' => ?_
      refine Pass.keeps_bind
        (leaves_inferPart fun e he => leaves_inferExpr hsetting (hdest e he)) fun dest' hdest' => ?_
      refine Pass.keeps_pure (done_singleton (List.forall_mem_singleton.mpr ⟨?_, trivial⟩))
      simp only [Stmt.nodes, Stmt.exprs, Expr.nodesAll_append, allInferred_append]
      refine ⟨?_, hvalues'⟩
      rwa [← Expr.nodesPart_eq]
  | global => exact Pass.keeps_throw
  | _ =>
      exact Pass.keeps_pure (done_singleton
        (List.forall_mem_singleton.mpr ⟨allInferred_nil, trivial⟩))
termination_by structural stmt

/-- Visiting a body of the source. -/
theorem leaves_inferBody {body : List Stmt} (hsetting : setting.HasDoubles p)
    (hsource : ∀ inner ∈ Stmt.nestedBody body, SourceStmt p inner) :
    Leaves p (Done p) (inferBody setting body) := by
  cases body with
  | nil => exact Pass.keeps_pure (List.forall_mem_nil _)
  | cons stmt body =>
      obtain ⟨hstmt, hbody⟩ := List.forall_mem_append.mp hsource
      simp only [inferBody]
      refine Pass.keeps_bind (leaves_inferStmt hsetting hstmt) fun stmts hstmts => ?_
      refine Pass.keeps_bind (leaves_inferBody hsetting hbody) fun rest hrest => ?_
      exact Pass.keeps_pure (done_append hstmts hrest)
termination_by structural body

end

end Statements

/-! ## Functions -/

/-- A function of the source whose literals have such doubles only. -/
structure SourceFunction (p : Binary64 → Prop) (func : FunctionDef) : Prop where
  source : func.IsSource
  literals : ∀ node ∈ func.nodes, DoublesIn p node.formScalars

theorem SourceFunction.statements {func : FunctionDef} (hfunc : SourceFunction p func) :
    ∀ stmt ∈ Stmt.nestedBody func.body, SourceStmt p stmt := by
  intro stmt hstmt
  refine ⟨hfunc.source.statements stmt hstmt, fun e he node hnode => ?_⟩
  refine hfunc.literals node (List.mem_flatMap.mpr ⟨stmt, hstmt, ?_⟩)
  exact Expr.mem_nodesAll.mpr ⟨e, he, hnode⟩

/-- The doubles in the types of a signature have the property. -/
structure SignatureDoubles (p : Binary64 → Prop) (signature : Signature) : Prop where
  args : ∀ ty ∈ signature.args, DoublesIn p ty.scalars
  ret : ∀ ty, signature.ret = some ty → DoublesIn p ty.scalars

theorem hasDoubles_ofFunction {func : FunctionDef} {args : List Ty}
    (hargs : ∀ ty ∈ args, DoublesIn p ty.scalars) :
    (Scope.ofFunction func args).HasDoubles p := by
  have hdeclare {vars : List Variable} {scope : Scope} (hscope : scope.HasDoubles p)
      (hvars : ∀ var ∈ vars, DoublesIn p var.scalars) :
      (vars.foldl Scope.declare scope).HasDoubles p := by
    induction vars generalizing scope with
    | nil => exact hscope
    | cons var vars ih =>
        obtain ⟨hvar, hvars⟩ := List.forall_mem_cons.mp hvars
        exact ih (hscope.insert hvar) hvars
  have hinitial : Scope.initial.HasDoubles p :=
    ⟨List.forall_mem_singleton.mpr doublesIn_nil, nofun⟩
  refine hdeclare hinitial fun var hvar => ?_
  simp only [List.mem_append, List.mem_map, List.mem_singleton] at hvar
  rcases hvar with (⟨⟨name, ty⟩, hparam, rfl⟩ | ⟨name, _, rfl⟩) | rfl
  · simpa [Variable.localNamed, Variable.scalars] using hargs ty (List.of_mem_zip hparam).2
  · exact doublesIn_nil
  · exact doublesIn_nil

/-- What inference leaves of a function of the source: statements that it is done with, and bindings
with such doubles only. -/
structure Inferred.IsDone (p : Binary64 → Prop) (func : FunctionDef) (inferred : Inferred) :
    Prop where
  statements : Done p inferred.func.body
  symbols : inferred.symbols.HasDoubles p
  temps : inferred.func.temps = func.temps
  errorReturn : inferred.func.errorReturn = func.errorReturn

theorem leaves_settleResult {declared : Option Ty}
    (hdeclared : ∀ ty, declared = some ty → DoublesIn p ty.scalars) :
    Leaves p (fun _ => True) (settleResult declared span) := by
  refine Pass.keeps_bind Pass.keeps_get fun scope hscope => ?_
  split
  · rw [pure_bind]
    exact leaves_setResult (hdeclared _ rfl) trivial
  · rw [pure_bind]
    exact leaves_setResult doublesIn_nil trivial
  · have hfound := hscope.result ‹_›
    split
    · rw [pure_bind]
      exact leaves_setResult hfound trivial
    · have hjoin : Leaves p (fun joined => DoublesIn p joined.scalars)
          (apply fun _ => join _ _ span) :=
        leaves_apply fun _ _ joined => doublesIn_join (hdeclared _ rfl) hfound
      exact Pass.keeps_bind hjoin fun joined hjoined => leaves_setResult hjoined trivial
  · rw [pure_bind]
    exact leaves_setResult (hscope.result ‹_›) trivial

/-- Inferring a function of the source. -/
theorem done_inferFunction {func : FunctionDef} {signature : Signature}
    (hsetting : setting.HasDoubles p) (hfunc : SourceFunction p func)
    (hsignature : SignatureDoubles p signature) :
    Pass.Obeys (Contract.answering p) (Inferred.IsDone p func)
      (inferFunction setting func signature) := by
  have hinfer : Leaves p (fun result : List Stmt × Ty => Done p result.1) (do
      let body ← inferBody setting func.body
      let ret ← settleResult signature.ret func.span
      pure (body, ret)) := by
    refine Pass.keeps_bind (leaves_inferBody hsetting hfunc.statements) fun body hbody => ?_
    exact Pass.keeps_bind (leaves_settleResult hsignature.ret) fun ret _ => Pass.keeps_pure hbody
  unfold inferFunction
  split
  · exact Pass.obeys_throw
  · refine Pass.obeys_bind (hinfer _ (hasDoubles_ofFunction hsignature.args)) ?_
    rintro ⟨⟨body, ret⟩, scope⟩ ⟨hscope, hbody⟩
    exact Pass.obeys_bind Pass.obeys_report fun _ _ =>
      Pass.obeys_pure ⟨hbody, hscope.symbols, rfl, rfl⟩

end Inference

end KernelFront
