import KernelFront.Proofs.Faults
import KernelFront.Proofs.Inference.Questions
import KernelFront.Proofs.Inference.Selectors
import KernelFront.Proofs.Inference.Validity

/-! # Steps of inference without faults

While a function is walked, all bindings stay valid, the binding of the result is there and is no
constant, and the table only grows. So what is valid for a table is valid for every later one. Each
guarded step does what the step that it guards does: an array that is iterated has a dimension to
take away, the selectors of a subscript are counted against the axes that are consumed and made, and
a builtin takes arguments that are there.
-/

namespace KernelFront

/-- The types in the entry point of an answer are ranked. -/
def Resolution.Ranked : Resolution → Prop
  | .native entry => entry.signature.Ranked
  | .host => True

/-- The types that a function is compiled for are ranked. -/
structure Signature.Ranked (signature : Signature) : Prop where
  args : ∀ arg ∈ signature.args, arg.Ranked
  ret : ∀ ty, signature.ret = some ty → ty.Ranked

/-- Anything may be asked, and entry points have ranked types. -/
def Contract.ranked : Contract := ⟨fun _ _ => True, Resolution.Ranked⟩

namespace Inference

open Guarded (Faultless runState)

variable {size later : Nat} {setting : Setting} {span : Span}

/-! ## Scopes -/

/-- A scope whose types are ranked, with a table of some size at least. The binding of the result is
there and is no constant. -/
structure Scope.Valid (size : Nat) (scope : Scope) : Prop where
  symbols : scope.symbols.Valid
  natives : ∀ {name entry}, scope.natives.lookup name = some entry → entry.signature.Ranked
  slot : ∃ var, scope.symbols.get? Scope.resultSlot = some var ∧ var.constantValue = none
  covers : size ≤ scope.symbols.size

namespace Scope.Valid

variable {scope : Scope}

theorem mono (hscope : scope.Valid later) (hle : size ≤ later) : scope.Valid size :=
  { hscope with covers := Nat.le_trans hle hscope.covers }

/-- The binding of the result is in the table. -/
theorem slot_lt (hscope : scope.Valid size) : Scope.resultSlot.index < scope.symbols.size := by
  obtain ⟨var, hvar, -⟩ := hscope.slot
  exact (List.getElem?_eq_some_iff.mp hvar).1

/-- The symbols of valid expressions are in the table. -/
theorem symbols_lt (hscope : scope.Valid size) {es : List Expr}
    (hes : AllValid size (Expr.nodesAll es)) :
    ∀ id ∈ Expr.symbolsAll es, id.index < scope.symbols.size :=
  fun id hid => Nat.lt_of_lt_of_le (hes.symbols id hid) hscope.covers

theorem insert (hscope : scope.Valid size) {var : Variable} (hvar : var.Valid) :
    Scope.Valid (scope.symbols.size + 1)
      { scope with symbols := (scope.symbols.insert var).2 } := by
  refine ⟨fun other hother => ?_, hscope.natives, ?_, ?_⟩
  · rcases List.mem_append.mp hother with hold | hnew
    · exact hscope.symbols other hold
    · rwa [List.mem_singleton.mp hnew]
  · obtain ⟨found, hfound, hconstant⟩ := hscope.slot
    exact ⟨found, SymbolTable.get?_insert var hfound, hconstant⟩
  · simp [SymbolTable.insert, SymbolTable.size]

/-- A binding that is not bound to `None` may take any ranked type. -/
theorem setType (hscope : scope.Valid size) {id : SymbolId} {ty : Ty} (hty : ty.Ranked)
    (hid : ∀ var, scope.symbols.get? id = some var → var.constantValue ≠ some .nothing) :
    (scope.setType id ty).Valid size := by
  refine ⟨fun var hvar => ?_, hscope.natives, ?_, ?_⟩
  · simp only [Scope.setType, SymbolTable.setType] at hvar
    obtain ⟨index, hindex, rfl⟩ := List.mem_iff_getElem.mp hvar
    have hbound : index < scope.symbols.vars.length := by simpa using hindex
    rw [List.getElem_modify]
    split
    next hsame =>
      subst hsame
      refine ⟨?_, fun hnothing => ?_⟩
      · rintro _ ⟨⟩
        exact hty
      · exact absurd hnothing (hid scope.symbols.vars[id.index] (List.getElem?_eq_getElem hbound))
    · exact hscope.symbols _ (List.getElem_mem hbound)
  · obtain ⟨found, hfound, hconstant⟩ := hscope.slot
    simp only [Scope.setType, SymbolTable.get?_setType]
    split
    next hslot =>
      rw [← hslot, hfound]
      exact ⟨_, rfl, hconstant⟩
    · exact ⟨found, hfound, hconstant⟩
  · simpa [Scope.setType, SymbolTable.setType, SymbolTable.size] using hscope.covers

theorem setResult (hscope : scope.Valid size) {ty : Ty} (hty : ty.Ranked) :
    (scope.setType Scope.resultSlot ty).Valid size := by
  refine hscope.setType hty fun var hvar hnothing => ?_
  obtain ⟨found, hfound, hconstant⟩ := hscope.slot
  cases hvar.symm.trans hfound
  cases hconstant.symm.trans hnothing

/-- What has no type yet is not bound to `None`. -/
theorem setUntyped (hscope : scope.Valid size) {id : SymbolId} {ty : Ty} (hty : ty.Ranked)
    (huntyped : (scope.symbols.get? id).any fun var => var.ty.isNone) :
    (scope.setType id ty).Valid size := by
  refine hscope.setType hty fun var hvar hnothing => ?_
  rw [hvar, Option.any_some, (hscope.symbols.get? hvar).nothing hnothing] at huntyped
  cases huntyped

theorem ranked_result (hscope : scope.Valid size) {ty : Ty}
    (hresult : scope.resultType? = some ty) : ty.Ranked := by
  obtain ⟨var, hvar, hty⟩ := Option.bind_eq_some_iff.mp hresult
  exact (hscope.symbols.get? hvar).ranked ty hty

end Scope.Valid

/-! ## Passes over a scope -/

section Passes

variable {α β : Type} {good : α → Prop} {pass : Infer α}

/-- The pass has good results and keeps the scope valid. -/
abbrev Holds (size : Nat) (good : α → Prop) (pass : Infer α) : Prop :=
  Pass.Keeps Contract.ranked (Scope.Valid size) good pass

theorem holds_apply {rule : SymbolTable → Except TypeError α}
    (hrule : ∀ table : SymbolTable, table.Valid →
      ∀ result, rule table = .ok result → good result) :
    Holds size good (apply rule) :=
  keeps_apply fun scope hscope => hrule scope.symbols hscope.symbols

/-- While the answers have ranked types, the guarded pass does what the pass does in every valid
scope. The scope at the end is valid for a table that is as large at least, and the result is good
for such a table. -/
def Tracks (size : Nat) (good : Nat → α → Prop) (guarded : Guarded Infer α) (pass : Infer α) :
    Prop :=
  ∀ before, Scope.Valid size before →
    Faultless Resolution.Ranked
      (fun (value, after) => ∃ later, size ≤ later ∧ after.Valid later ∧ good later value)
      (runState guarded before) (pass.run before)

variable {good : Nat → α → Prop} {last : Nat → β → Prop} {guarded : Guarded Infer α}

theorem tracks_lift (hpass : Holds size (good size) pass) :
    Tracks size good (ExceptT.lift pass) pass := by
  intro before hbefore
  rw [Guarded.runState_lift]
  refine Guarded.faultless_mono ?_ (Guarded.faultless_lift (hpass before hbefore))
  rintro ⟨value, after⟩ ⟨hafter, hgood⟩
  exact ⟨size, Nat.le_refl size, hafter, hgood⟩

theorem tracks_pure {value : α} (hgood : good size value) :
    Tracks size good (pure value) (pure value) := by
  intro before hbefore
  rw [Guarded.runState_pure]
  exact Guarded.faultless_pure ⟨size, Nat.le_refl size, hbefore, hgood⟩

theorem tracks_refuse {cause : Cause} : Tracks size good (ExceptT.lift (refuse cause span))
    (refuse cause span) :=
  tracks_lift Pass.keeps_throw

theorem tracks_bind {f : α → Guarded Infer β} {g : α → Infer β}
    (hfirst : Tracks size good guarded pass)
    (hrest : ∀ later, size ≤ later → ∀ value, good later value →
      Tracks later last (f value) (g value)) :
    Tracks size last (guarded >>= f) (pass >>= g) := by
  intro before hbefore
  rw [Guarded.runState_bind, StateT.run_bind]
  refine Guarded.faultless_bind (hfirst before hbefore) ?_
  rintro ⟨value, middle⟩ ⟨later, hle, hmiddle, hgood⟩
  refine Guarded.faultless_mono ?_ (hrest later hle value hgood middle hmiddle)
  rintro ⟨value, after⟩ ⟨last, hlast, hafter⟩
  exact ⟨last, Nat.le_trans hle hlast, hafter⟩

/-! ### Steps -/

/-- From this scope the guarded step does what the step does. -/
abbrev Runs (scope : Scope) (guarded : Guarded Infer α) (pass : Infer α) : Prop :=
  runState guarded scope = ExceptT.lift (pass.run scope)

theorem tracks_of_runs (hruns : ∀ scope, Scope.Valid size scope → Runs scope guarded pass)
    (hpass : Holds size (good size) pass) : Tracks size good guarded pass := by
  intro before hbefore
  rw [hruns before hbefore, ← Guarded.runState_lift]
  exact tracks_lift hpass before hbefore

variable {scope : Scope} {parts : List Expr}

theorem runs_visit (hscope : scope.Valid size) (hparts : AllValid size (Expr.nodesAll parts)) :
    Runs scope (Guarded.visit parts pass) pass := by
  rw [Runs, Guarded.visit, Guarded.runState_bind, Guarded.runState_get, pure_bind]
  dsimp only
  rw [Guarded.watch_of_lt (hscope.symbols_lt hparts), Guarded.runState_lift]

theorem tracks_visit (hparts : AllValid size (Expr.nodesAll parts))
    (hpass : Holds size (good size) pass) : Tracks size good (Guarded.visit parts pass) pass :=
  tracks_of_runs (fun _ hscope => runs_visit hscope hparts) hpass

/-- Applying a rule comes to what the rule says of the table. -/
theorem run_apply_ok {rule : SymbolTable → Except TypeError α} {value : α}
    (hrule : rule scope.symbols = .ok value) : (apply rule).run scope = pure (value, scope) := by
  simp only [apply, StateT.run_bind, StateT.run_get, pure_bind, hrule, StateT.run_pure]

theorem run_apply_error {rule : SymbolTable → Except TypeError α} {error : TypeError}
    (hrule : rule scope.symbols = .error error) : (apply rule).run scope = throw error := by
  simp only [apply, StateT.run_bind, StateT.run_get, pure_bind, hrule]
  rfl

theorem run_apply_congr {rule other : SymbolTable → Except TypeError α}
    (hsame : rule scope.symbols = other scope.symbols) :
    (apply rule).run scope = (apply other).run scope := by
  cases hrule : rule scope.symbols with
  | error error => rw [run_apply_error hrule, run_apply_error (hsame.symm.trans hrule)]
  | ok value => rw [run_apply_ok hrule, run_apply_ok (hsame.symm.trans hrule)]

theorem runs_pure_apply {rule : SymbolTable → Except TypeError α} {value : α}
    (hrule : rule scope.symbols = .ok value) : Runs scope (pure value) (apply rule) := by
  rw [Runs, Guarded.runState_pure, run_apply_ok hrule]
  rfl

theorem runs_refuse_apply {rule : SymbolTable → Except TypeError α} {cause : Cause}
    (hrule : rule scope.symbols = .error ⟨cause, span⟩) :
    Runs scope (ExceptT.lift (refuse cause span)) (apply rule) := by
  rw [Runs, Guarded.runState_lift, run_apply_error hrule]
  rfl

theorem runs_visit_apply {rule other : SymbolTable → Except TypeError α}
    (hscope : scope.Valid size) (hparts : AllValid size (Expr.nodesAll parts))
    (hsame : rule scope.symbols = other scope.symbols) :
    Runs scope (Guarded.visit parts (apply rule)) (apply other) := by
  rw [Runs, runs_visit hscope hparts, run_apply_congr hsame]

/-- A rule is applied first, and what it says is known from then on. -/
theorem runs_visit_bind {rule : SymbolTable → Except TypeError α} {f : α → Guarded Infer β}
    {pass : Infer β} (hscope : scope.Valid size) (hparts : AllValid size (Expr.nodesAll parts))
    (hok : ∀ value, rule scope.symbols = .ok value → Runs scope (f value) pass)
    (herror : ∀ error, rule scope.symbols = .error error → pass.run scope = throw error) :
    Runs scope (Guarded.visit parts (apply rule) >>= f) pass := by
  rw [Runs, Guarded.runState_bind, runs_visit hscope hparts]
  cases hrule : rule scope.symbols with
  | error error =>
      rw [run_apply_error hrule, herror error hrule]
      rfl
  | ok value =>
      rw [run_apply_ok hrule]
      exact hok value hrule

theorem runs_difference_bind {f : Nat → Guarded Infer β} {pass : Infer β}
    {minuend subtrahend : Nat} (hle : subtrahend ≤ minuend)
    (hrest : Runs scope (f (minuend - subtrahend)) pass) :
    Runs scope (Guarded.difference minuend subtrahend >>= f) pass := by
  rwa [Guarded.difference_of_le hle, pure_bind]

end Passes

/-! ## Names -/

theorem obeys_bindFree {name : String} {scope : Scope} (hsetting : setting.Ranked)
    (hscope : scope.Valid size) :
    Pass.Obeys Contract.ranked
      (fun (id, after) => ∃ later, size ≤ later ∧ after.Valid later ∧ id.index < later)
      ((bindFree setting name).run scope) := by
  have hbind {scope : Scope} (hscope : scope.Valid size) {ty : Ty} (hty : ty.Ranked) :
      Pass.Obeys Contract.ranked
        (fun (id, after) => ∃ later, size ≤ later ∧ after.Valid later ∧ id.index < later)
        (StateT.run (do
          report ("[infer] free name `" ++ name ++ "` is " ++ ty.text)
          let inserted := (← get).symbols.insert (.globalNamed name ty)
          modify fun scope => { scope with symbols := inserted.2 }
          pure inserted.1) scope) := by
    have hreport : Pass.Keeps Contract.ranked (fun found => found = scope) (fun _ => True)
        (report ("[infer] free name `" ++ name ++ "` is " ++ ty.text)) :=
      Pass.keeps_lift Pass.obeys_report
    have hvar : (Variable.globalNamed name ty).Valid := by
      refine Variable.valid_of_ranked ?_ rfl
      rintro _ ⟨⟩
      exact hty
    refine Pass.obeys_bind (hreport scope rfl) ?_
    rintro ⟨_, _⟩ ⟨rfl, -⟩
    exact Pass.obeys_pure ⟨_, Nat.le_succ_of_le hscope.covers, hscope.insert hvar,
      Nat.lt_succ_self _⟩
  simp only [bindFree, pure_bind]
  cases hkind : setting.names.lookup name with
  | builtin => exact hbind hscope (Ty.ranked_of_layouts rfl)
  | module owner isNumpy => exact hbind hscope (Ty.ranked_of_layouts rfl)
  | global => exact hbind hscope (Ty.ranked_of_layouts rfl)
  | native entry =>
      have hentry := hsetting.native hkind
      have hnatives : Scope.Valid size
          { scope with natives := (name, entry) :: scope.natives } := by
        refine ⟨hscope.symbols, fun {other found} hfound => ?_, hscope.slot, hscope.covers⟩
        rw [List.lookup_cons] at hfound
        split at hfound
        · cases hfound
          exact hentry
        · exact hscope.natives hfound
      exact hbind hnatives (Ty.ranked_function.mpr ⟨hentry.args, hentry.ret⟩)

theorem tracks_visitName {name : String} {access : Access} (hsetting : setting.Ranked) :
    Tracks size (fun later e => AllValid later e.nodes)
      (Guarded.visitName setting name access span) (visitName setting name access span) := by
  have hname {later : Nat} {id : SymbolId} (hid : id.index < later) : AllValid later
      (Expr.name { span, binding := some (.symbol id) } name access).nodes := by
    simp only [Expr.nodes, allValid_cons, allValid_nil, and_true]
    exact valid_symbol rfl rfl (List.forall_mem_singleton.mpr rfl) hid
  intro before hbefore
  have hfound {id : SymbolId} (hid : before.symbols.lookup name = some id) :
      id.index < before.symbols.size := by
    obtain ⟨var, hvar, -⟩ := SymbolTable.lookup_some hid
    exact (List.getElem?_eq_some_iff.mp hvar).1
  have hids : ∀ id ∈ (before.symbols.lookup name).toList, id.index < before.symbols.size :=
    fun id hid => hfound (Option.mem_toList.mp hid)
  have hruns : runState (Guarded.visitName setting name access span) before =
      ExceptT.lift ((visitName setting name access span).run before) := by
    rw [Guarded.visitName, Guarded.runState_bind, Guarded.runState_get, pure_bind]
    dsimp only
    rw [Guarded.lookUp_of_lt hids, pure_bind, Guarded.runState_lift]
  rw [hruns]
  show Faultless Contract.ranked.answer _ _ _
  refine Guarded.faultless_lift ?_
  rw [visitName, StateT.run_bind, StateT.run_get, pure_bind]
  dsimp only
  cases hlookup : before.symbols.lookup name with
  | some id =>
      dsimp only
      split
      · exact Pass.obeys_throw
      · exact Pass.obeys_pure ⟨_, hbefore.covers, { hbefore with covers := Nat.le_refl _ },
          hname (hfound hlookup)⟩
  | none =>
      rw [StateT.run_bind]
      refine Pass.obeys_bind (obeys_bindFree hsetting hbefore) ?_
      rintro ⟨id, after⟩ ⟨later, hle, hafter, hid⟩
      exact Pass.obeys_pure ⟨later, hle, hafter, hname hid⟩

/-! ## Calls -/

section Calls

variable {scope : Scope} {func : Expr} {args : List Expr} {keywords : List (String × Expr)}

theorem holds_directCall {entry : EntryPoint} (hentry : entry.signature.Ranked)
    (hargs : AllValid size (Expr.nodesAll args)) :
    Holds size (fun result => AllValid size result.nodes) (apply (directCall span entry args)) :=
  holds_apply fun _ _ _ => valid_directCall hentry hargs

theorem holds_typeExternalCall {ty : SymbolTable → Ty} (callee : String)
    (hparts : AllValid size (callNodes func args keywords))
    (hty : ∀ table : SymbolTable, table.Valid → (ty table).Ranked) :
    Holds size (fun result => AllValid size result.nodes)
      (typeExternalCall span callee func args keywords ty) := by
  have hhost : Holds size (fun result : Expr => AllValid size result.nodes) (do
      report ("[infer] `" ++ callee ++ "` called through the object protocol")
      apply fun table => .ok (hostCall span func args keywords (ty table) table)) := by
    refine keeps_report_bind (holds_apply fun table htable result hrule => ?_)
    cases hrule
    exact valid_hostCall (hty table htable) hparts
  have hargs : AllValid size (Expr.nodesAll args) := by
    simp only [callNodes, allValid_append] at hparts
    exact hparts.1.2
  unfold typeExternalCall
  dsimp only
  split
  · have htypes : Holds size (fun _ => True) (apply fun table => args.mapM (typeOf table)) :=
      holds_apply fun _ _ _ _ => trivial
    refine Pass.keeps_bind htypes fun types _ => ?_
    have hquestion : Pass.Obeys Contract.ranked Contract.ranked.answer (Pass.ask callee types) :=
      Pass.obeys_ask trivial
    refine Pass.keeps_bind (Pass.keeps_lift hquestion) fun answer hanswer => ?_
    cases answer with
    | host => exact hhost
    | native entry => exact keeps_report_bind (holds_directCall hanswer hargs)
  · exact hhost

theorem holds_typeCall (hsetting : setting.Ranked)
    (hparts : AllValid size (callNodes func args keywords)) :
    Holds size (fun result => AllValid size result.nodes)
      (typeCall setting span func args keywords) := by
  have hhost : Holds size (fun result : Expr => AllValid size result.nodes)
      (apply fun table => .ok (hostCall span func args keywords .object table)) := by
    refine holds_apply fun table _ result hrule => ?_
    cases hrule
    exact valid_hostCall ranked_object hparts
  have hsplit := hparts
  simp only [callNodes, allValid_append] at hsplit
  obtain ⟨⟨-, hargs⟩, hkeywords⟩ := hsplit
  have htype : Holds size (fun _ => True) (apply fun table => typeOf table func) :=
    holds_apply fun _ _ _ _ => trivial
  unfold typeCall
  refine Pass.keeps_bind htype fun ty _ => ?_
  split
  · exact holds_apply fun _ _ _ => valid_typeBuiltinCall hsetting hargs
  · split
    · refine Pass.keeps_bind Pass.keeps_get fun scope hscope => ?_
      dsimp only
      split
      next hentry =>
        obtain ⟨name, -, hentry⟩ := Option.bind_eq_some_iff.mp hentry
        exact holds_directCall (hscope.natives hentry) hargs
      · exact Pass.keeps_throw
    · exact hhost
  · exact holds_typeExternalCall _ hparts fun _ _ => ranked_object
  · refine holds_typeExternalCall _ hparts fun table htable => ?_
    split
    · exact ranked_arrayFunctionType htable hargs hkeywords
    · exact ranked_object
  · exact hhost

theorem allValid_callNodes :
    AllValid size (Expr.nodesAll (func :: (args ++ keywords.map Prod.snd))) ↔
      AllValid size (callNodes func args keywords) := by
  simp only [callNodes, Expr.nodesAll, Expr.nodesAll_append, allValid_append, and_assoc]

/-- A builtin with one parameter takes the only argument. -/
theorem runs_single {rest : Expr × List Expr → Guarded Infer Expr} {refusal : Guarded Infer Expr}
    {pass : Infer Expr} (hone : ∀ arg, args = [arg] → Runs scope (rest (arg, [])) pass)
    (hother : (∀ arg, args ≠ [arg]) → Runs scope refusal pass) :
    Runs scope (if args.length ≠ 1 then refusal else Guarded.remove args 0 >>= rest) pass := by
  split
  next hlength =>
    refine hother fun arg harg => hlength ?_
    rw [harg, List.length_singleton]
  next hlength =>
    obtain ⟨arg, rfl⟩ := List.length_eq_one_iff.mp (Decidable.not_not.mp hlength)
    rw [Guarded.remove_cons_zero, pure_bind]
    exact hone arg rfl

/-- A builtin takes as many arguments as there are. -/
theorem runs_typeBuiltinCall {name : String} (hscope : scope.Valid size)
    (hparts : AllValid size (Expr.nodesAll (args ++ keywords.map Prod.snd))) :
    Runs scope (Guarded.typeBuiltinCall setting span name args keywords)
      (apply (typeBuiltinCall setting span name args keywords)) := by
  unfold Guarded.typeBuiltinCall
  dsimp only
  split
  next hkeywords => exact runs_refuse_apply (if_pos hkeywords)
  next hkeywords =>
    obtain rfl : keywords = [] := Decidable.not_not.mp hkeywords
    split
    -- `range` and `xrange` are one builtin with two names.
    iterate 2
      · rcases args with _ | ⟨first, _ | ⟨second, _ | ⟨third, _ | ⟨fourth, rest⟩⟩⟩⟩
        · exact runs_refuse_apply (by simp [typeBuiltinCall])
        iterate 3
          · rw [if_neg (by simp)]
            simp only [List.length_cons, List.length_nil, Guarded.remove_cons_zero, pure_bind]
            exact runs_visit_apply hscope hparts (by simp [typeBuiltinCall])
        · rw [if_pos (by simp)]
          exact runs_refuse_apply (by simp [typeBuiltinCall])
    iterate 3
      · refine runs_single ?_ fun hother => runs_refuse_apply (by simp [typeBuiltinCall])
        rintro arg rfl
        exact runs_visit_apply hscope hparts (by simp [typeBuiltinCall])
    · exact runs_refuse_apply (by simp [typeBuiltinCall])

theorem runs_typeCall (hscope : scope.Valid size)
    (hparts : AllValid size (callNodes func args keywords)) :
    Runs scope (Guarded.typeCall setting span func args keywords)
      (typeCall setting span func args keywords) := by
  have hall := allValid_callNodes.mpr hparts
  have hargs : AllValid size (Expr.nodesAll (args ++ keywords.map Prod.snd)) :=
    (allValid_append.mp hall).2
  refine runs_visit_bind hscope hall (fun ty hty => ?_) fun error herror => ?_
  · split
    · rw [Runs, typeCall, StateT.run_bind, run_apply_ok hty, pure_bind]
      exact runs_typeBuiltinCall hscope hargs
    · exact runs_visit hscope hall
  · rw [typeCall, StateT.run_bind, run_apply_error herror]
    rfl

end Calls

/-! ## Subscripts -/

section Subscripts

variable {scope : Scope} {value selector : Expr} {access : Access} {ndim : Nat}
  {selectors : List Expr} {kinds : List SelectorKind}

/-- A selector makes an axis exactly if this is its kind: `None` is a boxed value, so that it is
not of another kind. -/
theorem makesAxis_iff {table : SymbolTable} {e : Expr} {kind : SelectorKind}
    (htable : table.Valid) (he : e.Valid size) (hkind : HasKind table e kind) :
    Guarded.makesAxis table e ↔ kind = .newAxis := by
  obtain ⟨ty, hty, hrule⟩ := bind_eq_ok.mp hkind
  have hty := typeOf_eq_ok.mp hty
  have hobject (hnothing : isNothing table e) : ty = .object :=
    Option.some.inj (hty.symm.trans (typeIn?_of_isNothing htable he hnothing))
  simp only [Guarded.makesAxis, hty, Option.some.injEq, Bool.or_eq_true, decide_eq_true_eq]
  by_cases haxis : ty = .newAxis ∨ isNothing table e
  · have hother : ty ≠ .ellipsis ∧ ¬ ty.isInt ∧ ty ≠ .slice := by
      rcases haxis with rfl | hnothing
      · decide
      · obtain rfl := hobject hnothing
        decide
    rw [if_neg hother.1, if_neg hother.2.1, if_neg hother.2.2, if_pos haxis] at hrule
    exact ⟨fun _ => (pure_eq_ok.mp hrule).symm, fun _ => haxis⟩
  · refine ⟨fun hmakes => absurd hmakes haxis, ?_⟩
    rintro rfl
    rw [if_neg haxis] at hrule
    split at hrule
    · cases hrule
    · split at hrule
      · cases hrule
      · split at hrule <;> cases hrule

theorem countP_makesAxis {table : SymbolTable} (htable : table.Valid)
    (hselectors : ∀ e ∈ selectors, e.Valid size)
    (hkinds : List.Forall₂ (HasKind table) selectors kinds) :
    selectors.countP (Guarded.makesAxis table) = kinds.count .newAxis := by
  induction hkinds with
  | nil => rfl
  | cons hkind _ ih =>
      obtain ⟨he, hrest⟩ := List.forall_mem_cons.mp hselectors
      have hmakes := makesAxis_iff htable he hkind
      simp only [List.countP_cons, List.count_cons, ih hrest, hmakes, beq_iff_eq]

theorem forall₂_hasKind {table : SymbolTable}
    (hkinds : selectors.mapM (selectorKind table) = .ok kinds) :
    List.Forall₂ (HasKind table) selectors kinds := by
  induction selectors generalizing kinds with
  | nil =>
      cases hkinds
      exact .nil
  | cons e selectors ih =>
      simp only [List.mapM_cons, bind_eq_ok, pure_eq_ok] at hkinds
      obtain ⟨kind, hkind, rest, hrest, rfl⟩ := hkinds
      exact .cons hkind (ih hrest)

/-- New axes are counted among the selectors, and no more axes are taken than there are. -/
theorem runs_arraySubscript {elem : Ty} (hscope : scope.Valid size)
    (hvalue : AllValid size value.nodes) (hselector : AllValid size selector.nodes) :
    Runs scope (Guarded.arraySubscript span elem ndim value selector access)
      (apply (arraySubscript span elem ndim value selector access)) := by
  have hparts : AllValid size (Expr.nodesAll [value, selector]) :=
    allValid_two.mpr ⟨hvalue, hselector⟩
  unfold Guarded.arraySubscript
  cases hselectors : selectors? selector with
  | none => exact runs_visit_apply hscope hparts (by simp only [arraySubscript, hselectors])
  | some selectors =>
      have heach := allValid_nodesAll.mp (valid_selectors hselector hselectors)
      refine runs_visit_bind hscope hparts (fun newAxes hnewAxes => ?_) fun _ herror => ?_
      · have hnewAxes : newAxes = selectors.countP (Guarded.makesAxis scope.symbols) :=
          (Except.ok.inj hnewAxes).symm
        have hle : newAxes ≤ selectors.length := hnewAxes ▸ List.countP_le_length
        refine runs_difference_bind hle ?_
        refine runs_visit_bind hscope hparts (fun kinds hkinds => ?_) fun error herror => ?_
        · have hkind := forall₂_hasKind hkinds
          have hcount := countP_makesAxis hscope.symbols (fun e he => (heach e he).self) hkind
          obtain rfl : newAxes = kinds.count .newAxis := hnewAxes.trans hcount
          have hlength := @length_expandEllipses _
            (ndim + 1 - (selectors.length - kinds.count .newAxis)) _ _ hkind
          dsimp only
          split
          next hother =>
            refine runs_visit_apply hscope hparts ?_
            simp only [arraySubscript, hselectors, hkinds]
            exact (if_pos hother).symm
          next hother =>
            have hread : .other ∉ kinds := by simpa [List.count_pos_iff] using hother
            have hconsuming := @SelectorKind.consuming_expand_eq_counts
              (ndim + 1 - (selectors.length - kinds.count .newAxis)) _ hread
            refine runs_difference_bind (by omega) ?_
            split
            next hmany =>
              refine runs_refuse_apply ?_
              simp only [arraySubscript, hselectors, hkinds]
              exact (if_neg hother).trans (if_pos hmany)
            next hfit =>
              refine runs_difference_bind (by omega) (runs_pure_apply ?_)
              simp only [arraySubscript, hselectors, hkinds]
              exact (if_neg hother).trans (if_neg hfit)
        · refine run_apply_error ?_
          simp only [arraySubscript, hselectors, herror]
          rfl
      · cases herror

theorem runs_typeSubscript (hscope : scope.Valid size) (hvalue : AllValid size value.nodes)
    (hselector : AllValid size selector.nodes) :
    Runs scope (Guarded.typeSubscript span value selector access)
      (apply (typeSubscript span value selector access)) := by
  have hparts : AllValid size (Expr.nodesAll [value, selector]) :=
    allValid_two.mpr ⟨hvalue, hselector⟩
  refine runs_visit_bind hscope hparts (fun ty hty => ?_) fun error herror => ?_
  · split
    next elem layout =>
      have hrule : typeSubscript span value selector access scope.symbols =
          arraySubscript span elem layout.ndim value selector access scope.symbols := by
        simp only [typeSubscript, hty]
        rfl
      rw [Runs, run_apply_congr hrule]
      exact runs_arraySubscript hscope hvalue hselector
    · exact runs_visit hscope hparts
  · refine run_apply_error ?_
    simp only [typeSubscript, herror]
    rfl

end Subscripts

/-- An array that is iterated has a dimension to take away. -/
theorem runs_elementType {iter : Expr} {scope : Scope} (hscope : scope.Valid size)
    (hiter : AllValid size iter.nodes) :
    Runs scope (Guarded.elementType setting iter) (apply (elementType setting iter)) := by
  have hparts : AllValid size (Expr.nodesAll [iter]) := allValid_one.mpr hiter
  refine runs_visit_bind hscope hparts (fun ty hty => ?_) fun error herror => ?_
  · have hranked := ranked_typeOf hscope.symbols hiter hty
    split
    · exact runs_pure_apply (by simp only [elementType, hty]; rfl)
    next elem layout =>
      have hndim : 1 ≤ layout.ndim := (Ty.ranked_array.mp hranked).1
      split
      next hone =>
        refine runs_pure_apply ?_
        simp only [elementType, hty]
        exact if_pos hone
      next hmany =>
        refine runs_difference_bind hndim (runs_pure_apply ?_)
        simp only [elementType, hty]
        exact if_neg hmany
    next hrange harray =>
      refine runs_refuse_apply ?_
      simp only [elementType, hty]
      cases ty with
      | range => exact absurd rfl hrange
      | array elem layout => exact absurd rfl (harray elem layout)
      | _ => rfl
  · refine run_apply_error ?_
    simp only [elementType, herror]
    rfl

theorem ranked_elementType {iter : Expr} {table : SymbolTable} {element : Ty}
    (hsetting : setting.Ranked) (htable : table.Valid) (hiter : AllValid size iter.nodes)
    (hrule : elementType setting iter table = .ok element) : element.Ranked := by
  simp only [elementType, bind_eq_ok] at hrule
  obtain ⟨ty, hty, hrule⟩ := hrule
  have hty := ranked_typeOf htable hiter hty
  split at hrule
  · cases hrule
    exact hsetting.index
  · obtain ⟨hndim, helem⟩ := Ty.ranked_array.mp hty
    split at hrule
    · cases hrule
      exact helem
    next hmany =>
      cases hrule
      exact Ty.ranked_array.mpr ⟨by dsimp only; omega, helem⟩
  · cases hrule

end Inference

end KernelFront
