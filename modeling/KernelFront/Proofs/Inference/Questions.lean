import KernelFront.Compilation
import KernelFront.Proofs.Inference.Spelling
import KernelFront.Proofs.Source

/-! # What inference asks for

Whatever the answers are, a function whose source belongs to a vocabulary asks for others with
arguments of the vocabulary only, and its result has such a type too. The later passes ask nothing.
-/

namespace KernelFront

namespace Inference

variable {α β : Type} {contract : Contract} {invariant : Scope → Prop} {good : α → Prop}
  {last : β → Prop}

theorem keeps_apply {rule : SymbolTable → Except TypeError α}
    (hrule : ∀ scope, invariant scope → ∀ result, rule scope.symbols = .ok result → good result) :
    Pass.Keeps contract invariant good (apply rule) := by
  refine Pass.keeps_bind Pass.keeps_get fun scope hscope => ?_
  have hrule := hrule scope hscope
  split
  · exact Pass.keeps_pure (hrule _ ‹_›)
  · exact Pass.keeps_throw

theorem keeps_report_bind {text : String} {rest : Infer β}
    (hrest : Pass.Keeps contract invariant last rest) :
    Pass.Keeps contract invariant last (report text >>= fun _ => rest) := by
  have hreport : Pass.Keeps contract invariant (fun _ => True) (report text) :=
    Pass.keeps_lift Pass.obeys_report
  exact Pass.keeps_bind hreport fun _ _ => hrest

theorem keeps_modify_bind {f : Scope → Scope} {rest : Infer β}
    (hkeeps : ∀ before, invariant before → invariant (f before))
    (hrest : Pass.Keeps contract invariant last rest) :
    Pass.Keeps contract invariant last (modify f >>= fun _ => rest) :=
  Pass.keeps_bind (Pass.keeps_modify hkeeps) fun _ _ => hrest

end Inference

namespace Vocabulary

open Inference

/-- The pass asks only for what the vocabulary has, and keeps the bindings to it. -/
abbrev Asks {α : Type} (vocabulary : Vocabulary) (good : α → Prop) (pass : Infer α) : Prop :=
  Pass.Keeps vocabulary.contract vocabulary.Scopes good pass

variable {vocabulary : Vocabulary} {setting : Setting} {span : Span}

section Composition

variable {α β : Type} {good : α → Prop} {last : β → Prop}

theorem asks_apply {rule : SymbolTable → Except TypeError α}
    (hrule : ∀ table, vocabulary.Tabulates table →
      ∀ result, rule table = .ok result → good result) :
    vocabulary.Asks good (apply rule) :=
  keeps_apply fun scope hscope => hrule scope.symbols hscope.symbols

theorem asks_report_bind {text : String} {rest : Infer β} (hrest : vocabulary.Asks last rest) :
    vocabulary.Asks last (report text >>= fun _ => rest) :=
  keeps_report_bind hrest

theorem asks_modify_bind {f : Scope → Scope} {rest : Infer β}
    (hkeeps : ∀ before, vocabulary.Scopes before → vocabulary.Scopes (f before))
    (hrest : vocabulary.Asks last rest) :
    vocabulary.Asks last (modify f >>= fun _ => rest) :=
  keeps_modify_bind hkeeps hrest

end Composition

/-! ## Scopes -/

theorem Scopes.insert {scope : Scope} {var : Variable} (hscope : vocabulary.Scopes scope)
    (hvar : vocabulary.Binds var) :
    vocabulary.Scopes { scope with symbols := (scope.symbols.insert var).2 } := by
  refine ⟨fun other hother => ?_, hscope.natives⟩
  rcases List.mem_append.mp hother with hold | hnew
  · exact hscope.symbols other hold
  · rwa [List.mem_singleton.mp hnew]

theorem Scopes.setType {scope : Scope} {ty : Ty} (hscope : vocabulary.Scopes scope)
    (hty : vocabulary.Spells ty) (id : SymbolId) : vocabulary.Scopes (scope.setType id ty) := by
  refine ⟨fun var hvar => ?_, hscope.natives⟩
  simp only [Scope.setType, SymbolTable.setType] at hvar
  obtain ⟨index, hindex, rfl⟩ := List.mem_iff_getElem.mp hvar
  rw [List.getElem_modify]
  have hold := hscope.symbols _ (List.getElem_mem (by simpa using hindex))
  split
  · refine ⟨?_, hold.constant⟩
    rintro _ ⟨⟩
    exact hty
  · exact hold

theorem binds_typed {var : Variable} {ty : Ty} (hvar : var.ty = some ty)
    (hconstant : var.isConstant = false) (hty : vocabulary.Spells ty) : vocabulary.Binds var := by
  refine ⟨fun found hfound => ?_, fun hfalse => ?_⟩
  · cases hvar.symm.trans hfound
    exact hty
  · cases hconstant.symm.trans hfalse

/-! ## Names -/

theorem asks_bindFree {note : Note} {name : String} {access : Access}
    (hadmits : vocabulary.Admits setting.names (.name note name access)) :
    vocabulary.Asks (fun _ => True) (bindFree setting name) := by
  have hbind {ty : Ty} (hty : vocabulary.Spells ty) : vocabulary.Asks (fun _ => True) (do
      report ("[infer] free name `" ++ name ++ "` is " ++ ty.text)
      let inserted := (← get).symbols.insert (.globalNamed name ty)
      modify fun scope => { scope with symbols := inserted.2 }
      pure inserted.1) := by
    refine asks_report_bind (Pass.keeps_bind Pass.keeps_get fun scope hscope => ?_)
    have hbinds : vocabulary.Binds (.globalNamed name ty) := binds_typed rfl rfl hty
    have hinsert := hscope.insert hbinds
    exact asks_modify_bind (fun before hbefore => ⟨hinsert.symbols, hbefore.natives⟩)
      (Pass.keeps_pure trivial)
  have hmentions := hadmits.mentions
  simp only [bindFree, pure_bind]
  cases hkind : setting.names.lookup name with
  | builtin =>
      simp only [Expr.mentions, hkind] at hmentions
      exact hbind (hmentions _ List.mem_cons_self)
  | module owner isNumpy =>
      simp only [Expr.mentions, hkind] at hmentions
      exact hbind (hmentions _ List.mem_cons_self)
  | global =>
      simp only [Expr.mentions, hkind] at hmentions
      exact hbind (hmentions _ List.mem_cons_self)
  | native entry =>
      simp only [Expr.mentions, hkind, List.forall_mem_cons] at hmentions
      obtain ⟨hfunction, hret, -⟩ := hmentions
      refine asks_modify_bind (fun before hbefore => ⟨hbefore.symbols, ?_⟩) (hbind hfunction)
      intro other found hfound
      rw [List.lookup_cons] at hfound
      split at hfound
      · cases hfound
        exact hret
      · exact hbefore.natives hfound

theorem asks_visitName {note : Note} {name : String} {sourceAccess : Access} (access : Access)
    (hadmits : vocabulary.Admits setting.names (.name note name sourceAccess)) :
    vocabulary.Asks (vocabulary.Visits (.name note name sourceAccess))
      (visitName setting name access span) := by
  have hname (id : SymbolId) : vocabulary.Visits (.name note name sourceAccess)
      (.name { span, binding := some (.symbol id) } name access) := by
    refine ⟨?_, List.forall_mem_nil _, ?_⟩
    · intro table htable ty hty
      rw [typeIn?_symbol table rfl] at hty
      cases hvar : table.get? id with
      | none =>
          rw [hvar] at hty
          cases hty
      | some var =>
          rw [hvar] at hty
          exact (htable.binds hvar).ty ty hty
    · intro table htable value hvalue
      obtain ⟨var, hvar, hvalue⟩ := Option.bind_eq_some_iff.mp hvalue
      split at hvalue
      · rename_i hconstant
        rw [(htable.binds hvar).constant hconstant value hvalue]
        rfl
      · cases hvalue
  unfold visitName
  refine Pass.keeps_bind Pass.keeps_get fun scope _ => ?_
  dsimp only
  split
  · split
    · have hrefuse : vocabulary.Asks (fun _ => True)
          (refuse (α := SymbolId) (.unboundLocal name) span) := Pass.keeps_throw
      exact Pass.keeps_bind hrefuse fun id _ => Pass.keeps_pure (hname id)
    · exact Pass.keeps_pure (hname _)
  · exact Pass.keeps_bind (asks_bindFree hadmits) fun id _ => Pass.keeps_pure (hname id)

/-! ## Calls -/

section Calls

variable {source : Expr} {sources args : List Expr} {keywords : List (String × Expr)}

theorem spellsAll_of_mapM {table : SymbolTable} {types : List Ty}
    (htable : vocabulary.Tabulates table) (hargs : ∀ arg ∈ args, vocabulary.Types arg)
    (hbound : args.length ≤ vocabulary.bound) (htypes : args.mapM (typeOf table) = .ok types) :
    vocabulary.SpellsAll types := by
  suffices hall : types.length = args.length ∧ ∀ ty ∈ types, vocabulary.Spells ty from
    ⟨hall.1 ▸ hbound, hall.2⟩
  clear hbound
  induction args generalizing types with
  | nil =>
      cases htypes
      exact ⟨rfl, List.forall_mem_nil _⟩
  | cons arg args ih =>
      simp only [List.mapM_cons, bind_eq_ok, pure_eq_ok, typeOf_eq_ok] at htypes
      obtain ⟨ty, hty, rest, hrest, rfl⟩ := htypes
      obtain ⟨harg, hargs⟩ := List.forall_mem_cons.mp hargs
      obtain ⟨hlength, hspells⟩ := ih hargs hrest
      exact ⟨congrArg Nat.succ hlength, List.forall_mem_cons.mpr ⟨harg htable hty, hspells⟩⟩

theorem asks_hostCall {func : Expr} {ty : SymbolTable → Ty}
    (hty : ∀ table, vocabulary.Tabulates table → vocabulary.Spells (ty table)) :
    vocabulary.Asks (vocabulary.Visits source)
      (apply fun table => .ok (hostCall span func args keywords (ty table) table)) := by
  refine asks_apply fun table htable result hrule => ?_
  cases hrule
  exact visits_typed rfl rfl (hty table htable)

theorem asks_directCall {entry : EntryPoint} (hret : vocabulary.Spells entry.signature.ret) :
    vocabulary.Asks (vocabulary.Visits source) (apply (directCall span entry args)) :=
  asks_apply fun _ _ _ => visits_directCall hret

/-- The only place where inference asks anything. -/
theorem asks_typeExternalCall {func : Expr} {ty : SymbolTable → Ty} (callee : String)
    (hargs : ∀ arg ∈ args, vocabulary.Types arg) (hbound : args.length ≤ vocabulary.bound)
    (hty : ∀ table, vocabulary.Tabulates table → vocabulary.Spells (ty table)) :
    vocabulary.Asks (vocabulary.Visits source)
      (typeExternalCall span callee func args keywords ty) := by
  have hhost : vocabulary.Asks (vocabulary.Visits source) (do
      report ("[infer] `" ++ callee ++ "` called through the object protocol")
      apply fun table => .ok (hostCall span func args keywords (ty table) table)) :=
    asks_report_bind (asks_hostCall hty)
  unfold typeExternalCall
  dsimp only
  split
  · have htypes : vocabulary.Asks vocabulary.SpellsAll
        (apply fun table => args.mapM (typeOf table)) :=
      asks_apply fun table htable types => spellsAll_of_mapM htable hargs hbound
    refine Pass.keeps_bind htypes fun types htypes => ?_
    have hquestion : Pass.Obeys vocabulary.contract vocabulary.contract.answer
        (Pass.ask callee types) := Pass.obeys_ask htypes
    refine Pass.keeps_bind (Pass.keeps_lift hquestion) fun answer hanswer => ?_
    cases answer with
    | host => exact hhost
    | native entry => exact asks_report_bind (asks_directCall hanswer)
  · exact hhost

theorem asks_typeCall {note : Note} {sourceFunc func : Expr}
    {sourceKeywords : List (String × Expr)} (hfits : vocabulary.Fits setting)
    (hadmits : vocabulary.Admits setting.names (.call note sourceFunc sources sourceKeywords))
    (hargs : List.Forall₂ vocabulary.Visits sources args)
    (hkeywords : ∀ arg ∈ keywords.map Prod.snd, vocabulary.Types arg) :
    vocabulary.Asks (vocabulary.Visits (.call note sourceFunc sources sourceKeywords))
      (typeCall setting span func args keywords) := by
  have htypes := types_of_visits hargs
  have hbound : args.length ≤ vocabulary.bound := hargs.length_eq ▸ hadmits.arity
  have hobject : ∀ table, vocabulary.Tabulates table → vocabulary.Spells .object :=
    fun _ _ => .plain rfl rfl
  have hhost : vocabulary.Asks (vocabulary.Visits (.call note sourceFunc sources sourceKeywords))
      (apply fun table => .ok (hostCall span func args keywords .object table)) :=
    asks_hostCall hobject
  unfold typeCall
  refine Pass.keeps_bind (asks_apply fun _ _ ty _ => trivial) fun ty _ => ?_
  split
  · exact asks_apply fun _ _ _ => visits_typeBuiltinCall hfits hargs
  · split
    · refine Pass.keeps_bind Pass.keeps_get fun scope hscope => ?_
      dsimp only
      split
      · rename_i hentry
        obtain ⟨name, -, hentry⟩ := Option.bind_eq_some_iff.mp hentry
        exact asks_directCall (hscope.natives hentry)
      · exact Pass.keeps_throw
    · exact hhost
  · exact asks_typeExternalCall _ htypes hbound hobject
  · refine asks_typeExternalCall _ htypes hbound fun table htable => ?_
    split
    · exact spells_arrayFunctionType hfits htable htypes hkeywords
    · exact .plain rfl rfl
  · exact hhost

end Calls

/-! ## Expressions -/

theorem asks_inferAll {es : List Expr}
    (heach : ∀ e ∈ es, vocabulary.Asks (vocabulary.Visits e) (inferExpr setting e)) :
    vocabulary.Asks (List.Forall₂ vocabulary.Visits es) (inferAll setting es) := by
  induction es with
  | nil => exact Pass.keeps_pure .nil
  | cons e es ih =>
      obtain ⟨he, hes⟩ := List.forall_mem_cons.mp heach
      refine Pass.keeps_bind he fun result hresult => ?_
      refine Pass.keeps_bind (ih hes) fun results hresults => ?_
      exact Pass.keeps_pure (.cons hresult hresults)

theorem asks_inferKeywords {keywords : List (String × Expr)}
    (heach : ∀ e ∈ keywords.map Prod.snd,
      vocabulary.Asks (vocabulary.Visits e) (inferExpr setting e)) :
    vocabulary.Asks (fun results => ∀ arg ∈ results.map Prod.snd, vocabulary.Types arg)
      (inferKeywords setting keywords) := by
  induction keywords with
  | nil => exact Pass.keeps_pure (List.forall_mem_nil _)
  | cons keyword keywords ih =>
      obtain ⟨he, hes⟩ := List.forall_mem_cons.mp heach
      refine Pass.keeps_bind he fun result hresult => ?_
      refine Pass.keeps_bind (ih hes) fun results hresults => ?_
      exact Pass.keeps_pure (List.forall_mem_cons.mpr ⟨hresult.types, hresults⟩)

theorem asks_inferPart {part : Option Expr}
    (heach : ∀ e ∈ part.toList, vocabulary.Asks (vocabulary.Visits e) (inferExpr setting e)) :
    vocabulary.Asks (fun result => ∀ e, result = some e → vocabulary.Types e)
      (inferPart setting part) := by
  cases part with
  | none =>
      refine Pass.keeps_pure ?_
      rintro _ ⟨⟩
  | some e =>
      refine Pass.keeps_bind (heach e (List.mem_singleton_self e)) fun result hresult => ?_
      refine Pass.keeps_pure ?_
      rintro _ ⟨⟩
      exact hresult.types

/-- Visiting an expression of the vocabulary. -/
theorem asks_inferExpr {e : Expr} (hfits : vocabulary.Fits setting)
    (hcovers : vocabulary.Covers setting.names e) :
    vocabulary.Asks (vocabulary.Visits e) (inferExpr setting e) := by
  induction e using Expr.induct with
  | hstep e ih =>
      have hparts : ∀ part ∈ e.children,
          vocabulary.Asks (vocabulary.Visits part) (inferExpr setting part) :=
        fun part hpart => ih part hpart (hcovers.part hpart)
      have hadmits := hcovers.self
      cases e with
      | name note id access =>
          simp only [inferExpr]
          exact asks_visitName access hadmits
      | const note value =>
          have hvalue := hadmits.folded value rfl
          refine Pass.keeps_pure ⟨types_constantOf hvalue, List.forall_mem_nil _, ?_⟩
          rintro table _ _ ⟨⟩
          rfl
      | ellipsis note =>
          refine Pass.keeps_pure ⟨?_, List.forall_mem_nil _, ?_⟩
          · rintro table _ _ ⟨⟩
            exact .plain rfl rfl
          · rintro table _ _ ⟨⟩
            rfl
      | binOp note left op right =>
          simp only [inferExpr]
          refine Pass.keeps_bind (hparts left List.mem_cons_self) fun left' hleft => ?_
          refine Pass.keeps_bind (hparts right (by simp [Expr.children])) fun right' hright => ?_
          exact asks_apply fun table htable result =>
            visits_typeBinOp htable hleft.types hright.types
      | boolOp note op values =>
          simp only [inferExpr]
          split
          · exact Pass.keeps_throw
          · refine Pass.keeps_bind (asks_inferAll hparts) fun values' _ => ?_
            refine asks_apply fun table _ result hrule => ?_
            cases hrule
            exact visits_typed rfl rfl (.plain rfl rfl)
      | unaryOp note op operand =>
          simp only [inferExpr]
          refine Pass.keeps_bind (hparts operand List.mem_cons_self) fun operand' hoperand => ?_
          exact asks_apply fun table htable result => visits_typeUnaryOp htable hoperand.types
      | compare note left ops comparators =>
          rcases ops with _ | ⟨op, _ | ⟨_, _⟩⟩
          · simp only [inferExpr]
            exact Pass.keeps_throw
          · rcases comparators with _ | ⟨right, _ | ⟨_, _⟩⟩
            · simp only [inferExpr]
              exact Pass.keeps_throw
            · simp only [inferExpr]
              refine Pass.keeps_bind (hparts left List.mem_cons_self) fun left' _ => ?_
              refine Pass.keeps_bind (hparts right (by simp [Expr.children])) fun right' _ => ?_
              exact asks_apply fun table _ result => visits_typeCompare
            · simp only [inferExpr]
              exact Pass.keeps_throw
          · simp only [inferExpr]
            exact Pass.keeps_throw
      | call note func args keywords =>
          obtain ⟨hfunc, hrest⟩ := List.forall_mem_cons.mp hparts
          obtain ⟨hargs, hkeywords⟩ := List.forall_mem_append.mp hrest
          simp only [inferExpr]
          refine Pass.keeps_bind hfunc fun func' _ => ?_
          refine Pass.keeps_bind (asks_inferAll hargs) fun args' hargs' => ?_
          refine Pass.keeps_bind (asks_inferKeywords hkeywords) fun keywords' hkeywords' => ?_
          exact asks_typeCall hfits hadmits hargs' hkeywords'
      | «attribute» note value attr access =>
          simp only [inferExpr]
          refine Pass.keeps_bind (hparts value List.mem_cons_self) fun value' hvalue => ?_
          exact asks_apply fun table htable result =>
            visits_typeAttribute hfits htable hadmits hvalue.types
      | subscript note value selector access =>
          simp only [inferExpr]
          refine Pass.keeps_bind (hparts value List.mem_cons_self) fun value' hvalue => ?_
          refine Pass.keeps_bind (hparts selector (by simp [Expr.children])) fun selector' _ => ?_
          exact asks_apply fun table htable result => visits_typeSubscript htable hvalue.types
      | index note value =>
          simp only [inferExpr]
          refine Pass.keeps_bind (hparts value List.mem_cons_self) fun value' hvalue => ?_
          exact asks_apply fun table htable result => visits_typeIndex htable hvalue.types
      | slice note lower upper step =>
          obtain ⟨hbounds, hstep⟩ := List.forall_mem_append.mp hparts
          obtain ⟨hlower, hupper⟩ := List.forall_mem_append.mp hbounds
          simp only [inferExpr]
          refine Pass.keeps_bind (asks_inferPart hlower) fun lower' _ => ?_
          refine Pass.keeps_bind (asks_inferPart hupper) fun upper' _ => ?_
          refine Pass.keeps_bind (asks_inferPart hstep) fun step' _ => ?_
          exact Pass.keeps_pure (visits_typed rfl rfl (.plain rfl rfl))
      | extSlice note dims =>
          simp only [inferExpr]
          refine Pass.keeps_bind (asks_inferAll hparts) fun dims' _ => ?_
          exact Pass.keeps_pure (visits_typed rfl rfl (.plain rfl rfl))
      | tuple note elts access =>
          simp only [inferExpr]
          refine Pass.keeps_bind (asks_inferAll hparts) fun elts' helts => ?_
          refine asks_apply fun table htable result hrule => ?_
          cases hrule
          exact visits_typeTuple htable hadmits helts
      | list note elts access =>
          simp only [inferExpr]
          refine Pass.keeps_bind (asks_inferAll hparts) fun elts' helts => ?_
          refine Pass.keeps_pure (visits_of_binding rfl ?_ (types_of_visits helts))
          rw [← helts.length_eq]
          exact hadmits.mentions _ List.mem_cons_self
      | dict note keys values =>
          obtain ⟨hkeys, hvalues⟩ := List.forall_mem_append.mp hparts
          simp only [inferExpr]
          refine Pass.keeps_bind (asks_inferAll hkeys) fun keys' _ => ?_
          refine Pass.keeps_bind (asks_inferAll hvalues) fun values' _ => ?_
          refine asks_apply fun table _ result hrule => ?_
          cases hrule
          exact visits_typed rfl rfl (.plain rfl rfl)
      | _ =>
          simp only [inferExpr]
          exact Pass.keeps_throw

/-! ## Statements -/

section Statements

variable {target value : Expr} {targets elements : List Expr}

theorem Admits.withAccess {names : Host.Namespace} {e : Expr} (hadmits : vocabulary.Admits names e)
    (access : Access) : vocabulary.Admits names (e.withAccess access) := by
  have hsame : (e.withAccess access).mentions names = e.mentions names ∧
      (e.withAccess access).folded? = e.folded? ∧ (e.withAccess access).attr? = e.attr? ∧
      (e.withAccess access).arity = e.arity := by
    cases e <;> simp [Expr.withAccess, Expr.mentions, Expr.folded?, Expr.attr?, Expr.arity]
  obtain ⟨hmentions, hfolded, hattr, harity⟩ := hsame
  refine ⟨?_, ?_, ?_, ?_⟩
  · exact hmentions ▸ hadmits.mentions
  · exact hfolded ▸ hadmits.folded
  · exact hattr ▸ hadmits.attr
  · exact harity ▸ hadmits.arity

theorem Covers.withAccess {names : Host.Namespace} {e : Expr} (hcovers : vocabulary.Covers names e)
    (access : Access) : vocabulary.Covers names (e.withAccess access) := by
  unfold Covers at hcovers ⊢
  rw [Expr.nodes_eq] at hcovers ⊢
  obtain ⟨hself, hparts⟩ := List.forall_mem_cons.mp hcovers
  rw [Expr.children_withAccess]
  exact List.forall_mem_cons.mpr ⟨hself.withAccess access, hparts⟩

theorem asks_typeStore (hvalue : vocabulary.Types value) :
    vocabulary.Asks (fun _ => True) (typeStore target value span) := by
  unfold typeStore
  refine Pass.keeps_bind Pass.keeps_get fun scope _ => ?_
  have htype : vocabulary.Asks vocabulary.Spells (apply fun table => typeOf table value) :=
    asks_apply fun table htable ty hty => hvalue htable (typeOf_eq_ok.mp hty)
  refine Pass.keeps_bind htype fun rhs hrhs => ?_
  dsimp only
  split
  · split
    · exact asks_modify_bind (fun before hbefore => hbefore.setType hrhs _)
        (Pass.keeps_pure trivial)
    · exact asks_apply fun _ _ _ _ => trivial
  · exact asks_apply fun _ _ _ _ => trivial

theorem asks_storeAll (hfits : vocabulary.Fits setting)
    (htargets : ∀ target ∈ targets, vocabulary.Covers setting.names target)
    (helements : ∀ element ∈ elements, vocabulary.Types element) :
    vocabulary.Asks (fun _ => True) (storeAll setting span targets elements) := by
  induction targets generalizing elements with
  | nil =>
      simp only [storeAll]
      exact Pass.keeps_pure trivial
  | cons target targets ih =>
      cases elements with
      | nil =>
          simp only [storeAll]
          exact Pass.keeps_pure trivial
      | cons element elements =>
          obtain ⟨htarget, htargets⟩ := List.forall_mem_cons.mp htargets
          obtain ⟨helement, helements⟩ := List.forall_mem_cons.mp helements
          simp only [storeAll]
          refine Pass.keeps_bind (asks_inferExpr hfits htarget) fun target' _ => ?_
          refine Pass.keeps_bind (asks_typeStore helement) fun stmt _ => ?_
          exact Pass.keeps_bind (ih htargets helements) fun stmts _ => Pass.keeps_pure trivial

theorem types_unpackedElements {source : Expr} {table : SymbolTable}
    (hfits : vocabulary.Fits setting) (htable : vocabulary.Tabulates table)
    (hvalue : vocabulary.Visits source value)
    (hrule : unpackedElements setting value table = .ok elements) :
    ∀ element ∈ elements, vocabulary.Types element := by
  simp only [unpackedElements, bind_eq_ok, typeOf_eq_ok] at hrule
  obtain ⟨ty, hty, hrule⟩ := hrule
  have hty := hvalue.types htable hty
  split at hrule
  · cases hrule
    exact List.forall_mem_map.mpr fun i _ => types_of_binding rfl (hty.base rfl)
  · cases hrule
    exact hvalue.elements
  · cases hrule
    exact hvalue.elements
  · split at hrule
    · rename_i items hitems
      cases hrule
      exact List.forall_mem_map.mpr fun item hitem =>
        types_constantOf (hty.item hitems hitem hfits.bound)
    · cases hrule

theorem asks_unpack {source : Expr} (hfits : vocabulary.Fits setting)
    (htargets : ∀ target ∈ targets, vocabulary.Covers setting.names target)
    (hvalue : vocabulary.Visits source value) :
    vocabulary.Asks (fun _ => True) (unpack setting span targets value) := by
  refine Pass.keeps_bind (asks_apply fun _ _ size _ => trivial) fun size _ => ?_
  split
  · exact Pass.keeps_throw
  · have helements : vocabulary.Asks
        (fun elements => ∀ element ∈ elements, vocabulary.Types element)
        (apply (unpackedElements setting value)) :=
      asks_apply fun table htable elements => types_unpackedElements hfits htable hvalue
    exact Pass.keeps_bind helements fun elements helements => asks_storeAll hfits htargets helements

theorem asks_inferAssign {source : Expr} (hfits : vocabulary.Fits setting)
    (htargets : ∀ target ∈ targets, vocabulary.Covers setting.names target)
    (hvalue : vocabulary.Visits source value) :
    vocabulary.Asks (fun _ => True) (inferAssign setting span targets value) := by
  unfold inferAssign
  split
  · exact asks_unpack hfits (fun elt helt => (htargets _ List.mem_cons_self).part helt) hvalue
  · exact asks_unpack hfits (fun elt helt => (htargets _ List.mem_cons_self).part helt) hvalue
  · exact asks_storeAll hfits htargets (List.forall_mem_singleton.mpr hvalue.types)
  · exact asks_unpack hfits htargets hvalue

/-- An element of an array is an array with one axis less, or no array at all. -/
theorem spells_elementType {iter : Expr} {table : SymbolTable} {element : Ty}
    (hfits : vocabulary.Fits setting) (htable : vocabulary.Tabulates table)
    (hiter : vocabulary.Types iter) (hrule : elementType setting iter table = .ok element) :
    vocabulary.Spells element := by
  simp only [elementType, bind_eq_ok, typeOf_eq_ok] at hrule
  obtain ⟨ty, hty, hrule⟩ := hrule
  have hty := hiter htable hty
  split at hrule
  · cases hrule
    exact hfits.index
  · split at hrule
    · cases hrule
      exact hty.base rfl
    · cases hrule
      exact hty.strided _
  · cases hrule

theorem asks_bindElement {element : Ty} (helement : vocabulary.Spells element) :
    vocabulary.Asks (fun _ => True) (bindElement target element) := by
  refine Pass.keeps_bind Pass.keeps_get fun scope _ => ?_
  dsimp only
  split
  · split
    · exact Pass.keeps_modify fun before hbefore => hbefore.setType helement _
    · exact asks_apply fun _ _ _ _ => trivial
  · exact asks_apply fun _ _ _ _ => trivial

theorem asks_setResult {α : Type} {ty : Ty} {result : α} (hty : vocabulary.Spells ty) :
    vocabulary.Asks (fun _ => True) (do
      modify fun scope => scope.setType Scope.resultSlot ty
      pure result) :=
  asks_modify_bind (fun _ hbefore => hbefore.setType hty _) (Pass.keeps_pure trivial)

theorem Scopes.result {scope : Scope} {ty : Ty} (hscope : vocabulary.Scopes scope)
    (hresult : scope.resultType? = some ty) : vocabulary.Spells ty := by
  obtain ⟨var, hvar, hty⟩ := Option.bind_eq_some_iff.mp hresult
  exact (hscope.symbols.binds hvar).ty ty hty

theorem asks_inferReturn {value : Option Expr}
    (hvalue : ∀ e, value = some e → vocabulary.Types e) :
    vocabulary.Asks (fun _ => True) (inferReturn span value) := by
  have hnothing : vocabulary.Asks (fun _ => True) (returnNothing span) := by
    refine Pass.keeps_bind Pass.keeps_get fun scope _ => ?_
    split
    · exact asks_setResult (.plain rfl rfl)
    · exact asks_setResult (.plain rfl rfl)
    · exact Pass.keeps_throw
  cases value with
  | none => exact hnothing
  | some value =>
      refine Pass.keeps_bind Pass.keeps_get fun scope _ => ?_
      split
      · exact hnothing
      · have htype : vocabulary.Asks vocabulary.Spells (apply fun table => typeOf table value) :=
          asks_apply fun table htable ty hty => hvalue value rfl htable (typeOf_eq_ok.mp hty)
        refine Pass.keeps_bind htype fun ty hty => ?_
        refine Pass.keeps_bind Pass.keeps_get fun scope hscope => ?_
        split
        · rw [pure_bind]
          exact asks_setResult hty
        · have hjoin : vocabulary.Asks vocabulary.Spells (apply fun _ => join _ ty value.span) :=
            asks_apply fun _ _ widened => spells_join (hscope.result ‹_›) hty
          exact Pass.keeps_bind hjoin fun widened hwidened => asks_setResult hwidened

theorem asks_inferTest {test : Expr} (hfits : vocabulary.Fits setting)
    (htest : vocabulary.Covers setting.names test) :
    vocabulary.Asks (fun _ => True) (inferTest setting test) :=
  Pass.keeps_bind (asks_inferExpr hfits htest) fun _ _ => asks_apply fun _ _ _ _ => trivial

theorem asks_inferPrinted {values : List Expr} (hfits : vocabulary.Fits setting)
    (hvalues : ∀ value ∈ values, vocabulary.Covers setting.names value) :
    vocabulary.Asks (fun _ => True) (inferPrinted setting values) := by
  induction values with
  | nil => exact Pass.keeps_pure trivial
  | cons value values ih =>
      obtain ⟨hvalue, hvalues⟩ := List.forall_mem_cons.mp hvalues
      refine Pass.keeps_bind (asks_inferExpr hfits hvalue) fun value' _ => ?_
      refine Pass.keeps_bind (asks_apply fun _ _ _ _ => trivial) fun value' _ => ?_
      exact Pass.keeps_bind (ih hvalues) fun values' _ => Pass.keeps_pure trivial

/-- A statement of the vocabulary, the statements in its bodies apart. -/
def CoversStmt (vocabulary : Vocabulary) (names : Host.Namespace) (stmt : Stmt) : Prop :=
  ∀ e ∈ stmt.exprs, vocabulary.Covers names e

mutual

/-- Visiting a statement of the vocabulary. -/
theorem asks_inferStmt {stmt : Stmt} (hfits : vocabulary.Fits setting)
    (hcovers : ∀ inner ∈ stmt.nested, vocabulary.CoversStmt setting.names inner) :
    vocabulary.Asks (fun _ => True) (inferStmt setting stmt) := by
  cases stmt with
  | assign span targets value =>
      have hself := hcovers _ List.mem_cons_self
      obtain ⟨htargets, hvalue⟩ := List.forall_mem_append.mp hself
      simp only [inferStmt]
      refine Pass.keeps_bind (asks_inferExpr hfits (hvalue value List.mem_cons_self))
        fun value' => ?_
      exact asks_inferAssign hfits htargets
  | augAssign span target op value =>
      have hself := hcovers _ List.mem_cons_self
      have htarget := hself target List.mem_cons_self
      have hvalue := hself value (by simp [Stmt.exprs])
      have hop : vocabulary.Covers setting.names
          (.binOp { span } (target.withAccess .load) op value) := by
        unfold Covers
        rw [Expr.nodes]
        refine List.forall_mem_cons.mpr
          ⟨⟨List.forall_mem_nil _, nofun, nofun, by simp [Expr.arity]⟩, ?_⟩
        exact List.forall_mem_append.mpr ⟨htarget.withAccess .load, hvalue⟩
      simp only [inferStmt]
      refine Pass.keeps_bind (asks_inferExpr hfits hop) fun value' hvalue' => ?_
      exact asks_storeAll hfits (List.forall_mem_singleton.mpr htarget)
        (List.forall_mem_singleton.mpr hvalue'.types)
  | forIn span target iter body orelse index =>
      have hself := hcovers _ List.mem_cons_self
      have hbody := (List.forall_mem_append.mp (List.forall_mem_cons.mp hcovers).2).1
      have hiter := hself iter (by simp [Stmt.exprs])
      simp only [inferStmt]
      split
      · exact Pass.keeps_throw
      · split
        · exact Pass.keeps_throw
        · refine Pass.keeps_bind (asks_inferExpr hfits hiter) fun iter' hiter' => ?_
          have helement : vocabulary.Asks vocabulary.Spells (apply (elementType setting iter')) :=
            asks_apply fun table htable element => spells_elementType hfits htable hiter'.types
          refine Pass.keeps_bind helement fun element helement => ?_
          refine Pass.keeps_bind (asks_inferExpr hfits (hself target List.mem_cons_self))
            fun target' _ => ?_
          refine Pass.keeps_bind (asks_bindElement helement) fun _ _ => ?_
          exact Pass.keeps_bind (asks_inferBody hfits hbody) fun body' _ => Pass.keeps_pure trivial
  | whileLoop span test body orelse =>
      have hself := hcovers _ List.mem_cons_self
      have hbody := (List.forall_mem_append.mp (List.forall_mem_cons.mp hcovers).2).1
      simp only [inferStmt]
      split
      · exact Pass.keeps_throw
      · refine Pass.keeps_bind (asks_inferTest hfits (hself test List.mem_cons_self))
          fun test' _ => ?_
        exact Pass.keeps_bind (asks_inferBody hfits hbody) fun body' _ => Pass.keeps_pure trivial
  | branch span test body orelse =>
      have hself := hcovers _ List.mem_cons_self
      obtain ⟨hbody, horelse⟩ := List.forall_mem_append.mp (List.forall_mem_cons.mp hcovers).2
      simp only [inferStmt]
      refine Pass.keeps_bind (asks_inferTest hfits (hself test List.mem_cons_self))
        fun test' _ => ?_
      refine Pass.keeps_bind (asks_inferBody hfits hbody) fun body' _ => ?_
      exact Pass.keeps_bind (asks_inferBody hfits horelse) fun orelse' _ => Pass.keeps_pure trivial
  | ret span value =>
      have hself := hcovers _ List.mem_cons_self
      simp only [inferStmt]
      refine Pass.keeps_bind (asks_inferPart fun e he => asks_inferExpr hfits (hself e he))
        fun value' hvalue => ?_
      exact Pass.keeps_bind (asks_inferReturn hvalue) fun stmt _ => Pass.keeps_pure trivial
  | expr span value =>
      have hself := hcovers _ List.mem_cons_self
      simp only [inferStmt]
      exact Pass.keeps_bind (asks_inferExpr hfits (hself value List.mem_cons_self)) fun value' _ =>
        Pass.keeps_pure trivial
  | print span values dest newline =>
      have hself := hcovers _ List.mem_cons_self
      obtain ⟨hdest, hvalues⟩ := List.forall_mem_append.mp hself
      simp only [inferStmt]
      refine Pass.keeps_bind (asks_inferPrinted hfits hvalues) fun values' _ => ?_
      refine Pass.keeps_bind (asks_inferPart fun e he => asks_inferExpr hfits (hdest e he))
        fun dest' _ => ?_
      exact Pass.keeps_pure trivial
  | global => exact Pass.keeps_throw
  | _ => exact Pass.keeps_pure trivial
termination_by structural stmt

/-- Visiting a body of the vocabulary. -/
theorem asks_inferBody {body : List Stmt} (hfits : vocabulary.Fits setting)
    (hcovers : ∀ inner ∈ Stmt.nestedBody body, vocabulary.CoversStmt setting.names inner) :
    vocabulary.Asks (fun _ => True) (inferBody setting body) := by
  cases body with
  | nil => exact Pass.keeps_pure trivial
  | cons stmt body =>
      obtain ⟨hstmt, hbody⟩ := List.forall_mem_append.mp hcovers
      simp only [inferBody]
      refine Pass.keeps_bind (asks_inferStmt hfits hstmt) fun stmts _ => ?_
      exact Pass.keeps_bind (asks_inferBody hfits hbody) fun rest _ => Pass.keeps_pure trivial
termination_by structural body

end

end Statements

/-! ## Functions -/

/-- The source of a function belongs to the vocabulary. -/
def CoversFunction (vocabulary : Vocabulary) (names : Host.Namespace) (func : FunctionDef) : Prop :=
  ∀ node ∈ func.nodes, vocabulary.Admits names node

theorem CoversFunction.body {names : Host.Namespace} {func : FunctionDef}
    (hcovers : vocabulary.CoversFunction names func) :
    ∀ stmt ∈ Stmt.nestedBody func.body, vocabulary.CoversStmt names stmt := by
  intro stmt hstmt e he node hnode
  refine hcovers node (List.mem_flatMap.mpr ⟨stmt, hstmt, ?_⟩)
  exact Expr.mem_nodesAll.mpr ⟨e, he, hnode⟩

theorem scopes_ofFunction {func : FunctionDef} {args : List Ty}
    (hargs : ∀ ty ∈ args, vocabulary.Spells ty) :
    vocabulary.Scopes (Scope.ofFunction func args) := by
  have hdeclare {vars : List Variable} {scope : Scope} (hscope : vocabulary.Scopes scope)
      (hvars : ∀ var ∈ vars, vocabulary.Binds var) :
      vocabulary.Scopes (vars.foldl Scope.declare scope) := by
    induction vars generalizing scope with
    | nil => exact hscope
    | cons var vars ih =>
        obtain ⟨hvar, hvars⟩ := List.forall_mem_cons.mp hvars
        exact ih (hscope.insert hvar) hvars
  have huntyped {var : Variable} (hty : var.ty = none) (hconstant : var.isConstant = false) :
      vocabulary.Binds var := by
    refine ⟨fun ty hfound => ?_, fun hfalse => ?_⟩
    · cases hty.symm.trans hfound
    · cases hconstant.symm.trans hfalse
  have hinitial : vocabulary.Scopes Scope.initial :=
    ⟨List.forall_mem_singleton.mpr (huntyped rfl rfl), nofun⟩
  refine hdeclare hinitial fun var hvar => ?_
  simp only [List.mem_append, List.mem_map, List.mem_singleton] at hvar
  rcases hvar with (⟨⟨name, ty⟩, hparam, rfl⟩ | ⟨name, _, rfl⟩) | rfl
  · exact binds_typed rfl rfl (hargs ty (List.of_mem_zip hparam).2)
  · exact huntyped rfl rfl
  · refine ⟨?_, ?_⟩
    · rintro _ ⟨⟩
      exact .plain rfl rfl
    · rintro _ _ ⟨⟩
      rfl

/-- Inferring a function of the vocabulary for arguments of the vocabulary. -/
theorem obeys_inferFunction {func : FunctionDef} {args : List Ty} (hfits : vocabulary.Fits setting)
    (hcovers : vocabulary.CoversFunction setting.names func)
    (hargs : ∀ ty ∈ args, vocabulary.Spells ty) :
    Pass.Obeys vocabulary.contract (fun inferred => vocabulary.Spells inferred.signature.ret)
      (inferFunction setting func ⟨args, none⟩) := by
  have hsettle : vocabulary.Asks vocabulary.Spells (settleResult none func.span) := by
    refine Pass.keeps_bind Pass.keeps_get fun scope hscope => ?_
    have hset {ty : Ty} (hty : vocabulary.Spells ty) : vocabulary.Asks vocabulary.Spells (do
        modify fun scope => scope.setType Scope.resultSlot ty
        pure ty) :=
      asks_modify_bind (fun _ hbefore => hbefore.setType hty _) (Pass.keeps_pure hty)
    cases hresult : scope.resultType? with
    | none =>
        simp only [pure_bind]
        exact hset (.plain rfl rfl)
    | some found =>
        simp only [pure_bind]
        exact hset (hscope.result hresult)
  have hinfer : vocabulary.Asks (fun result : List Stmt × Ty => vocabulary.Spells result.2) (do
      let body ← inferBody setting func.body
      let ret ← settleResult none func.span
      pure (body, ret)) := by
    refine Pass.keeps_bind (asks_inferBody hfits hcovers.body) fun body _ => ?_
    exact Pass.keeps_bind hsettle fun ret hret => Pass.keeps_pure hret
  unfold inferFunction
  split
  · exact Pass.obeys_throw
  · refine Pass.obeys_bind (hinfer _ (scopes_ofFunction hargs)) ?_
    rintro ⟨⟨body, ret⟩, scope⟩ ⟨_, hret⟩
    exact Pass.obeys_bind Pass.obeys_report fun _ _ => Pass.obeys_pure hret

/-! ## The later passes -/

section Silence

variable {contract : Contract}

/-- The pass asks nothing. -/
def Silent (contract : Contract) (α : Type) (pass : Loops.Lowering α) : Prop :=
  Pass.Keeps contract (fun _ => True) (fun _ => True) pass

theorem composable_silent : Composable (Silent contract) :=
  ⟨fun _ => Pass.keeps_pure trivial,
    fun hfirst hnext => Pass.keeps_bind hfirst fun value _ => hnext value⟩

theorem silent_allocate (ty : Ty) (kind : TempKind) : Silent contract _ (allocate ty kind) := by
  have hget : Silent contract _ (get : Loops.Lowering (List TempDecl)) := Pass.keeps_get
  have hset (temps : List TempDecl) : Silent contract _ (set temps : Loops.Lowering PUnit) :=
    fun _ _ => Pass.obeys_pure ⟨trivial, trivial⟩
  exact composable_silent.bind hget fun temps =>
    composable_silent.bind (hset _) fun _ => composable_silent.pure _

theorem silent_lowerLoop {table : SymbolTable} {indexType : Ty} {span : Span} {target iter : Expr}
    {body orelse : List Stmt} :
    Silent contract _ (Loops.lowerLoop table indexType span target iter body orelse) := by
  have hreport {lowered : List Stmt} {text : String} : Silent contract _ (do
      StateT.lift (Pass.report .debug text)
      pure lowered) :=
    composable_silent.bind (Pass.keeps_lift Pass.obeys_report) fun _ => composable_silent.pure _
  have hthrow {α : Type} {error : TypeError} : Silent contract α (throw error) := Pass.keeps_throw
  have honce : Silent contract _ (Loops.evaluateOnce iter (iter.ty.getD .void)) := by
    unfold Loops.evaluateOnce
    split
    · exact composable_silent.pure _
    · exact composable_silent.bind (silent_allocate _ .array) fun id => composable_silent.pure _
  unfold Loops.lowerLoop
  split
  · exact hthrow
  · dsimp only
    split
    · exact hreport
    · refine composable_silent.bind honce fun setup => ?_
      refine composable_silent.bind (silent_allocate _ _) fun id => ?_
      exact composable_silent.bind (composable_silent.pure _) fun lowered => hreport
    · exact composable_silent.bind hthrow fun lowered => hreport

theorem silent_lowerBody (table : SymbolTable) (indexType : Ty) (body : List Stmt) :
    Silent contract _ (Loops.lowerBody table indexType body) := by
  refine composable_silent.rebuildBody (fun stmt => ?_) fun _ _ e _ => ?_
  · cases stmt with
    | forIn => exact silent_lowerLoop
    | _ => exact composable_silent.pure _
  · rw [Expr.rebuildM_pure]
    exact composable_silent.pure e

theorem obeys_reporting {α : Type} {outcome : Except TypeError α} {level : Level}
    {text : α → String} : Pass.Obeys contract (fun _ => True) (do
      let result ← Pass.ofExcept outcome
      Pass.report level (text result)
      pure result) := by
  have houtcome : Pass.Obeys contract (fun _ => True) (Pass.ofExcept outcome) :=
    Pass.obeys_ofExcept fun _ _ => trivial
  refine Pass.obeys_bind houtcome fun result _ => ?_
  exact Pass.obeys_bind Pass.obeys_report fun _ _ => Pass.obeys_pure trivial

theorem obeys_counted {table : SymbolTable} {indexType : Ty} {func : FunctionDef} :
    Pass.Obeys contract (fun _ => True) (func.counted table indexType) := by
  refine Pass.obeys_bind (silent_lowerBody table indexType func.body func.temps trivial) ?_
  rintro ⟨body, temps⟩ -
  exact Pass.obeys_bind Pass.obeys_report fun _ _ => Pass.obeys_pure trivial

end Silence

/-- Compiling a function of the vocabulary for arguments of the vocabulary. -/
theorem obeys_compile {func : FunctionDef} {args : List Ty} (hfits : vocabulary.Fits setting)
    (hcovers : vocabulary.CoversFunction setting.names func)
    (hargs : ∀ ty ∈ args, vocabulary.Spells ty) :
    Pass.Obeys vocabulary.contract (fun compiled => vocabulary.Spells compiled.signature.ret)
      (func.compile setting ⟨args, none⟩) := by
  refine Pass.obeys_bind Pass.obeys_report fun _ _ => ?_
  refine Pass.obeys_bind (obeys_inferFunction hfits hcovers hargs) fun inferred hinferred => ?_
  refine Pass.obeys_bind obeys_reporting fun typed _ => ?_
  refine Pass.obeys_bind obeys_counted fun counted _ => ?_
  refine Pass.obeys_bind obeys_reporting fun boxed _ => ?_
  exact Pass.obeys_bind Pass.obeys_report fun _ _ => Pass.obeys_pure hinferred

end Vocabulary

end KernelFront
