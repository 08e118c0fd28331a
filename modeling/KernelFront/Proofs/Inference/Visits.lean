import KernelFront.Proofs.Inference.Regular

/-! # Visits of expressions

An expression of the source is visited from a sane scope. Whatever the surroundings answer, the
visit ends in a sane scope with an expression that is determined, or with a refusal that is no
internal error. One case is left out: a callee that has the type of a function, but is not a free
name, has no entry point.
-/

namespace KernelFront.Inference

open Scope (resultSlot)

/-! ## Steps of scopes -/

namespace Scope

variable {own : List String} {scope : Scope}

theorem keeps_declare {var : Variable}
    (hnew : ∀ {name}, var.name = some name → scope.symbols.lookup name = none) :
    scope.Keeps (scope.declare var) := by
  refine ⟨fun htyped => ?_, fun {name id} hfound => ?_⟩
  · obtain ⟨ty, hty⟩ := Option.isSome_iff_exists.mp htyped
    exact Option.isSome_of_eq_some (SymbolTable.typeOf?_insert var hty)
  · rw [Scope.declare, SymbolTable.lookup_insert, if_neg, hfound]
    intro hname
    cases hfound.symm.trans (hnew hname)

/-- A binding with a type may be added under a name whose entry point is known, if it needs one. -/
theorem Sane.declare (hsane : scope.Sane own) {var : Variable} (htyped : var.ty.isSome)
    (hnative : ∀ {name params ret}, var.name = some name → var.ty = some (.function params ret) →
      (scope.natives.lookup name).isSome) : (scope.declare var).Sane own := by
  refine ⟨(grows_insert var rfl).anonymous hsane.anonymous, ?_, ?_⟩
  · intro id found hid hfound hnone
    simp only [Scope.declare, SymbolTable.get?, SymbolTable.insert] at hfound
    rcases Nat.lt_or_ge id.index scope.symbols.vars.length with hlt | hge
    · rw [List.getElem?_append_left hlt] at hfound
      exact hsane.untyped hid hfound hnone
    · rw [List.getElem?_append_right hge] at hfound
      obtain rfl := List.mem_singleton.mp (List.mem_of_getElem? hfound)
      rw [hnone] at htyped
      cases htyped
  · intro name id params ret hown hfound hty
    simp only [Scope.declare, SymbolTable.lookup_insert] at hfound
    split at hfound
    · rename_i hname
      cases hfound
      rw [Scope.declare, SymbolTable.typeOf?_insert_self] at hty
      exact hnative hname hty
    · obtain ⟨other, hother, _⟩ := SymbolTable.lookup_some hfound
      rw [Scope.declare, SymbolTable.typeOf?, SymbolTable.get?_insert var hother, ← hother] at hty
      exact hsane.natives hown hfound hty

theorem keeps_setType (scope : Scope) (id : SymbolId) (ty : Ty) :
    scope.Keeps (scope.setType id ty) := by
  refine ⟨fun {other} htyped => ?_, fun hfound => ?_⟩
  · by_cases hid : other = id
    · subst hid
      obtain ⟨_, hty⟩ := Option.isSome_iff_exists.mp htyped
      obtain ⟨var, hvar, _⟩ := Option.bind_eq_some_iff.mp hty
      exact Option.isSome_of_eq_some (SymbolTable.typeOf?_setType_self hvar _)
    · rwa [setType, SymbolTable.typeOf?_setType_of_ne _ hid]
  · rwa [setType, SymbolTable.lookup_setType]

/-- A type may be given to the result and to bindings without a type, none of which is that of a
free name. -/
theorem Sane.setType (hsane : scope.Sane own) {id : SymbolId} (ty : Ty)
    (hopen : id = resultSlot ∨ (scope.symbols.get? id).any fun var => var.ty.isNone) :
    (scope.setType id ty).Sane own := by
  refine ⟨?_, ?_, ?_⟩
  · obtain ⟨var, hvar, hname⟩ := hsane.anonymous
    unfold Anonymous
    simp only [Scope.setType, SymbolTable.get?_setType]
    split
    · rename_i hid
      exact ⟨{ var with ty := some ty }, by rw [← hid, hvar]; rfl, hname⟩
    · exact ⟨var, hvar, hname⟩
  · intro other found hother hfound hnone
    simp only [Scope.setType, SymbolTable.get?_setType] at hfound
    split at hfound
    · obtain ⟨var, _, rfl⟩ := Option.map_eq_some_iff.mp hfound
      cases hnone
    · exact hsane.untyped hother hfound hnone
  · intro name other params ret hown hfound hty
    rw [Scope.setType, SymbolTable.lookup_setType] at hfound
    have hslot := hsane.anonymous.lookup_ne hfound
    have hother : other ≠ id := by
      rintro rfl
      obtain ⟨var, hvar, hname⟩ := SymbolTable.lookup_some hfound
      rw [hvar, Option.any_some, Option.isNone_iff_eq_none] at hopen
      obtain ⟨_, bound, hbound, hsame⟩ := hsane.untyped hslot hvar (hopen.resolve_left hslot)
      cases hsame.symm.trans hname
      exact hown hbound
    rw [Scope.setType, SymbolTable.typeOf?_setType_of_ne _ hother] at hty
    exact hsane.natives hown hfound hty

end Scope

/-! ## Visits -/

/-- What a walk over a function takes as given: the names that the function binds itself, the places
of names that are exempt, and the refusals that are allowed, among them all that are no internal
errors. -/
structure Ambient where
  setting : Setting
  own : List String
  exempt : Span → Prop
  allowed : TypeError → Prop
  regular : ∀ {error}, error.kind ≠ .internal → allowed error

namespace Ambient

/-- Inference went on to a later scope, which is sane and satisfies `fact`. -/
structure Found (ambient : Ambient) (before : Scope) (fact : Scope → Prop) (after : Scope) :
    Prop where
  keeps : before.Keeps after
  sane : after.Sane ambient.own
  holds : fact after

/-- Whatever the answers are, the pass goes on to a scope that is good for its value, or it refuses
the function for a reason that is allowed. -/
def Visits {α : Type} (ambient : Ambient) (pass : Infer α) (before : Scope)
    (good : α → Scope → Prop) : Prop :=
  Pass.Meets ambient.allowed pass before fun value => ambient.Found before (good value)

/-- A call among these expressions may end in an internal error only if that is allowed. -/
def Admits (ambient : Ambient) (nodes : List Expr) : Prop :=
  ∀ ⦃note callee args⦄, .call note callee args [] ∈ nodes → ¬ callee.IsFreeName ambient.own →
    ambient.allowed ⟨.internal "native callee without entry point", note.span⟩

variable {ambient : Ambient} {before : Scope}

theorem Admits.mono {nodes others : List Expr} (hadmits : ambient.Admits nodes)
    (hothers : ∀ node ∈ others, node ∈ nodes) : ambient.Admits others :=
  fun _ _ _ hcall hnative => hadmits (hothers _ hcall) hnative

theorem Admits.append {first second : List Expr} (hadmits : ambient.Admits (first ++ second)) :
    ambient.Admits first ∧ ambient.Admits second :=
  ⟨hadmits.mono fun _ hnode => List.mem_append_left second hnode,
    hadmits.mono fun _ hnode => List.mem_append_right first hnode⟩

theorem Admits.below {e : Expr} (hadmits : ambient.Admits e.nodes) :
    ambient.Admits (Expr.nodesAll e.children) := by
  refine hadmits.mono fun node hnode => ?_
  rw [Expr.nodes_eq]
  exact List.mem_cons_of_mem e hnode

theorem Admits.part {parts : List Expr} {part : Expr}
    (hadmits : ambient.Admits (Expr.nodesAll parts)) (hpart : part ∈ parts) :
    ambient.Admits part.nodes :=
  hadmits.mono fun _ hnode => Expr.mem_nodesAll.mpr ⟨part, hpart, hnode⟩

section Composition

variable {α β : Type} {good : α → Scope → Prop} {last : β → Scope → Prop}

theorem visits_pure {value : α} (hsane : before.Sane ambient.own)
    (hgood : good value before) : ambient.Visits (pure value) before good :=
  Pass.meets_pure ⟨.refl before, hsane, hgood⟩

theorem visits_refuse {cause : Cause} {span : Span} (hkind : cause.kind ≠ .internal) :
    ambient.Visits (refuse cause span) before good :=
  Pass.meets_throw (ambient.regular hkind)

theorem visits_bind {pass : Infer α} {f : α → Infer β}
    (hpass : ambient.Visits pass before good)
    (hrest : ∀ value middle, ambient.Found before (good value) middle →
      ambient.Visits (f value) middle last) : ambient.Visits (pass >>= f) before last := by
  refine Pass.meets_bind hpass fun value middle hfirst => ?_
  refine (hrest value middle hfirst).mono fun result after _ hsecond => ?_
  exact ⟨hfirst.keeps.trans hsecond.keeps, hsecond.sane, hsecond.holds⟩

theorem visits_get {f : Scope → Infer β} (hsane : before.Sane ambient.own)
    (hrest : ambient.Visits (f before) before last) : ambient.Visits (get >>= f) before last := by
  have hget : ambient.Visits get before fun scope middle => scope = before ∧ middle = before :=
    Pass.meets_get ⟨.refl before, hsane, rfl, rfl⟩
  refine visits_bind hget ?_
  rintro _ _ ⟨_, _, rfl, rfl⟩
  exact hrest

theorem visits_apply {rule : SymbolTable → Except TypeError α}
    (hsane : before.Sane ambient.own)
    (hrule : Regular (good · before) (rule before.symbols)) :
    ambient.Visits (apply rule) before good := by
  refine visits_get hsane ?_
  cases houtcome : rule before.symbols with
  | ok result =>
      rw [houtcome] at hrule
      exact visits_pure hsane hrule
  | error error =>
      rw [houtcome] at hrule
      exact Pass.meets_throw (ambient.regular hrule)

theorem visits_apply_bind {rule : SymbolTable → Except TypeError α} {f : α → Infer β}
    {fact : α → Prop} (hsane : before.Sane ambient.own)
    (hrule : Regular fact (rule before.symbols))
    (hrest : ∀ result, fact result → ambient.Visits (f result) before last) :
    ambient.Visits (apply rule >>= f) before last := by
  have happly : ambient.Visits (apply rule) before fun result after =>
      after = before ∧ fact result := by
    refine visits_apply hsane ?_
    cases houtcome : rule before.symbols with
    | ok result =>
        rw [houtcome] at hrule
        exact regular_ok ⟨rfl, hrule⟩
    | error error =>
        rw [houtcome] at hrule
        exact hrule
  refine visits_bind happly ?_
  rintro result _ ⟨_, _, rfl, hfact⟩
  exact hrest result hfact

theorem visits_lift_bind {pass : Pass α} {f : α → Infer β}
    (hsane : before.Sane ambient.own) (hpass : ∀ error, ¬ Pass.Refuses pass error)
    (hrest : ∀ answer, ambient.Visits (f answer) before last) :
    ambient.Visits (StateT.lift pass >>= f) before last := by
  have hlift : ambient.Visits (StateT.lift pass) before fun _ after => after = before :=
    Pass.meets_lift (fun _ _ => ⟨.refl before, hsane, rfl⟩) fun error hrefuses =>
      absurd hrefuses (hpass error)
  refine visits_bind hlift ?_
  rintro answer _ ⟨_, _, rfl⟩
  exact hrest answer

theorem visits_report_bind {text : String} {rest : Infer β}
    (hsane : before.Sane ambient.own) (hrest : ambient.Visits rest before last) :
    ambient.Visits (report text >>= fun _ => rest) before last :=
  visits_lift_bind hsane (fun _ => Pass.not_refuses_report) fun _ => hrest

theorem visits_modify {f : Scope → Scope} {good : PUnit → Scope → Prop}
    (hkeeps : before.Keeps (f before)) (hsane : (f before).Sane ambient.own)
    (hgood : good ⟨⟩ (f before)) : ambient.Visits (modify f) before good :=
  Pass.meets_modify ⟨hkeeps, hsane, hgood⟩

theorem visits_modify_bind {f : Scope → Scope} {rest : Infer β}
    (hkeeps : before.Keeps (f before)) (hsane : (f before).Sane ambient.own)
    (hrest : ambient.Visits rest (f before) last) :
    ambient.Visits (modify f >>= fun _ => rest) before last := by
  have hmodify : ambient.Visits (modify f) before fun _ after => after = f before :=
    visits_modify hkeeps hsane rfl
  refine visits_bind hmodify ?_
  rintro _ _ ⟨_, _, rfl⟩
  exact hrest

theorem Visits.mono {pass : Infer α} {other : α → Scope → Prop}
    (hvisits : ambient.Visits pass before good)
    (hgood : ∀ value after, ambient.Found before (good value) after → other value after) :
    ambient.Visits pass before other :=
  Pass.Meets.mono hvisits fun value after _ hfound =>
    ⟨hfound.keeps, hfound.sane, hgood value after hfound⟩

end Composition

/-- The pass ends with an expression that is determined throughout. -/
abbrev Reads (ambient : Ambient) (pass : Infer Expr) (before : Scope) : Prop :=
  ambient.Visits pass before fun result after => AllDetermined after.symbols result.nodes

/-! ## Names -/

variable {span : Span}

/-- A free name that is new is bound and has a type; if that is the type of a function, the entry
point is known. -/
theorem visits_bindFree {name : String} (hnew : before.symbols.lookup name = none)
    (hsane : before.Sane ambient.own) :
    ambient.Visits (bindFree ambient.setting name) before fun id after =>
      after.symbols.lookup name = some id ∧ (after.symbols.typeOf? id).isSome := by
  -- What the namespace says decides on the entry points and leaves the bindings as they are.
  have hinsert {middle : Scope} (ty : Ty) (hnew : middle.symbols.lookup name = none)
      (hsane : middle.Sane ambient.own)
      (hnative : ∀ {params ret}, ty = .function params ret →
        (middle.natives.lookup name).isSome) :
      ambient.Visits (do
        report ("[infer] free name `" ++ name ++ "` is " ++ ty.text)
        let table := (← get).symbols
        modify fun scope => { scope with symbols := (table.insert (.globalNamed name ty)).2 }
        pure ⟨table.size⟩) middle fun id after =>
          after.symbols.lookup name = some id ∧ (after.symbols.typeOf? id).isSome := by
    have hkeeps : middle.Keeps (middle.declare (.globalNamed name ty)) := by
      refine Scope.keeps_declare fun hname => ?_
      obtain rfl := Option.some.inj hname
      exact hnew
    have hdeclared : (middle.declare (.globalNamed name ty)).Sane ambient.own := by
      refine hsane.declare rfl fun hname hty => ?_
      obtain rfl := Option.some.inj hname
      exact hnative (Option.some.inj hty)
    refine visits_report_bind hsane (visits_get hsane ?_)
    refine visits_modify_bind hkeeps hdeclared (visits_pure hdeclared ⟨?_, ?_⟩)
    · exact (SymbolTable.lookup_insert _ _ _).trans (if_pos rfl)
    · exact Option.isSome_of_eq_some (SymbolTable.typeOf?_insert_self _ _)
  unfold bindFree
  split
  · exact hinsert _ hnew hsane (by rintro _ _ ⟨⟩)
  · exact hinsert _ hnew hsane (by rintro _ _ ⟨⟩)
  · rename_i entry _
    have hknown : (((name, entry) :: before.natives).lookup name).isSome := by simp
    have hsane : Scope.Sane ambient.own
        { before with natives := (name, entry) :: before.natives } := by
      refine ⟨hsane.anonymous, hsane.untyped, fun {other} _ _ _ hown hfound hty => ?_⟩
      rw [List.lookup_cons]
      split
      · rfl
      · exact hsane.natives hown hfound hty
    exact visits_modify_bind ⟨id, id⟩ hsane (hinsert _ hnew hsane fun _ => hknown)
  · exact hinsert _ hnew hsane (by rintro _ _ ⟨⟩)

/-- A visited name is bound as its latest binding says, which has a type if the name is read. -/
theorem visits_visitName (name : String) (access : Access)
    (hsane : before.Sane ambient.own) :
    ambient.Visits (visitName ambient.setting name access span) before fun result after =>
      ∃ id, result = .name { span, binding := some (.symbol id) } name access ∧
        after.symbols.lookup name = some id ∧
        (access = .load → (after.symbols.typeOf? id).isSome) := by
  unfold visitName
  refine visits_get hsane ?_
  dsimp only
  split
  · rename_i id hid
    split
    · exact visits_refuse ErrorKind.noConfusion
    · rename_i hassigned
      refine visits_pure hsane ⟨id, rfl, hid, ?_⟩
      rintro rfl
      -- A local without a type would have been refused, and all other bindings have one.
      obtain ⟨var, hvar, _⟩ := SymbolTable.lookup_some hid
      simp only [hvar, Option.any_some, decide_true, Bool.and_true, Bool.and_eq_true,
        not_and] at hassigned
      simp only [SymbolTable.typeOf?, hvar, Option.bind_some]
      cases hty : var.ty with
      | some ty => rfl
      | none =>
          have hlocal := (hsane.untyped (hsane.anonymous.lookup_ne hid) hvar hty).1
          exact absurd (by rw [hty]; rfl) (hassigned hlocal)
  · rename_i hnew
    refine visits_bind (visits_bindFree hnew hsane) ?_
    rintro id _ ⟨_, hsane, hlookup, htyped⟩
    exact visits_pure hsane ⟨id, rfl, hlookup, fun _ => htyped⟩

theorem reads_visitName (name : String) (hsane : before.Sane ambient.own) :
    ambient.Reads (visitName ambient.setting name .load span) before := by
  refine (visits_visitName name .load hsane).mono ?_
  rintro _ after ⟨_, _, id, rfl, _, htyped⟩
  exact known_node ⟨htyped rfl, by rintro _ ⟨⟩⟩ known_nil

/-! ## Calls -/

variable {func : Expr} {args : List Expr} {keywords : List (String × Expr)}

theorem reads_hostCall (hsane : before.Sane ambient.own)
    (hfunc : AllDetermined before.symbols func.nodes)
    (hargs : AllDetermined before.symbols (Expr.nodesAll args))
    (hkeywords : AllDetermined before.symbols (Expr.nodesAll (keywords.map Prod.snd)))
    (ty : SymbolTable → Ty) :
    ambient.Reads (apply fun table => .ok (hostCall span func args keywords (ty table) table))
      before :=
  visits_apply hsane (regular_ok (determined_hostCall hfunc hargs hkeywords _))

theorem reads_typeExternalCall (callee : String) (ty : SymbolTable → Ty)
    (hsane : before.Sane ambient.own)
    (hfunc : AllDetermined before.symbols func.nodes)
    (hargs : AllDetermined before.symbols (Expr.nodesAll args))
    (hkeywords : AllDetermined before.symbols (Expr.nodesAll (keywords.map Prod.snd))) :
    ambient.Reads (typeExternalCall span callee func args keywords ty) before := by
  have hhost : ambient.Reads (do
      report ("[infer] `" ++ callee ++ "` called through the object protocol")
      apply fun table => .ok (hostCall span func args keywords (ty table) table)) before := by
    exact visits_report_bind hsane (reads_hostCall hsane hfunc hargs hkeywords ty)
  unfold typeExternalCall
  dsimp only
  split
  · have htypes : Regular (fun _ => True) (args.mapM (typeOf before.symbols)) :=
      regular_mapM fun arg harg =>
        regular_typeOf (AllDetermined.root (known_nodesAll.mp hargs arg harg))
    refine visits_apply_bind hsane htypes fun types _ => ?_
    refine visits_lift_bind hsane (fun _ => Pass.not_refuses_ask) fun answer => ?_
    cases answer with
    | host => exact hhost
    | native entry =>
        exact visits_report_bind hsane (visits_apply hsane (builds_directCall hargs))
  · exact hhost

/-- A direct call finds an entry point, or may do without. -/
theorem reads_typeCall (hsane : before.Sane ambient.own)
    (hfunc : AllDetermined before.symbols func.nodes)
    (hargs : AllDetermined before.symbols (Expr.nodesAll args))
    (hkeywords : AllDetermined before.symbols (Expr.nodesAll (keywords.map Prod.snd)))
    (hnative : keywords = [] →
      (∀ {params ret}, func.typeIn? before.symbols = some (.function params ret) →
        ∃ name, func.asName = some name ∧ (before.natives.lookup name).isSome) ∨
      ambient.allowed ⟨.internal "native callee without entry point", span⟩) :
    ambient.Reads (typeCall ambient.setting span func args keywords) before := by
  have hhost : ambient.Reads (apply fun table =>
      .ok (hostCall span func args keywords .object table)) before :=
    reads_hostCall hsane hfunc hargs hkeywords fun _ => .object
  unfold typeCall
  refine visits_apply_bind hsane (regular_typeOf hfunc.root) fun ty hty => ?_
  split
  · exact visits_apply hsane (builds_typeBuiltinCall _ keywords hargs)
  · split
    · rename_i hempty
      refine visits_get hsane ?_
      dsimp only
      split
      · exact visits_apply hsane (builds_directCall hargs)
      · rename_i hmissing
        refine Pass.meets_throw ?_
        refine (hnative (List.isEmpty_iff.mp hempty)).resolve_left ?_
        intro hknown
        obtain ⟨name, hname, hentry⟩ := hknown hty
        rw [hname, Option.bind_some] at hmissing
        rw [hmissing] at hentry
        cases hentry
    · exact hhost
  · exact reads_typeExternalCall _ _ hsane hfunc hargs hkeywords
  · exact reads_typeExternalCall _ _ hsane hfunc hargs hkeywords
  · exact hhost

/-- A free name has been bound as its latest binding says. -/
def BoundFree (ambient : Ambient) (scope : Scope) (e : Expr) : Prop :=
  ∃ name id, e.asName = some name ∧ e.binding = some (.symbol id) ∧ name ∉ ambient.own ∧
    scope.symbols.lookup name = some id

/-- A callee of function type has an entry point if it is a free name. -/
theorem BoundFree.native {e : Expr} (hfree : ambient.BoundFree before e)
    (hsane : before.Sane ambient.own) {params : List Ty} {ret : Ty}
    (hty : e.typeIn? before.symbols = some (.function params ret)) :
    ∃ name, e.asName = some name ∧ (before.natives.lookup name).isSome := by
  obtain ⟨name, id, hname, hbinding, hown, hfound⟩ := hfree
  obtain ⟨var, hvar, _⟩ := SymbolTable.lookup_some hfound
  rw [typeIn?_symbol _ hbinding, hvar] at hty
  exact ⟨name, hname, hsane.natives hown hfound (Option.bind_eq_some_iff.mpr ⟨var, hvar, hty⟩)⟩

theorem BoundFree.mono {e : Expr} {after : Scope} (hkeeps : before.Keeps after)
    (hfree : ambient.BoundFree before e) : ambient.BoundFree after e := by
  obtain ⟨name, id, hname, hbinding, hown, hfound⟩ := hfree
  exact ⟨name, id, hname, hbinding, hown, hkeeps.lookup hfound⟩

/-- A visited callee. -/
theorem visits_callee {callee : Expr} (hread : callee.IsRead) (hsane : before.Sane ambient.own)
    (hreads : ambient.Reads (inferExpr ambient.setting callee) before) :
    ambient.Visits (inferExpr ambient.setting callee) before fun result after =>
      AllDetermined after.symbols result.nodes ∧
      (callee.IsFreeName ambient.own → ambient.BoundFree after result) := by
  cases hname : callee.asName with
  | none =>
      refine hreads.mono fun result after hfound => ⟨hfound.holds, ?_⟩
      rintro ⟨name, hother, _⟩
      cases hname.symm.trans hother
  | some name =>
      obtain ⟨note, access, rfl⟩ := Expr.eq_name_of_asName hname
      obtain rfl : access = .load := (hread _ (Expr.mem_nodes_self _)).1
      simp only [inferExpr]
      refine (visits_visitName name .load hsane).mono ?_
      rintro _ after ⟨_, _, id, rfl, hlookup, htyped⟩
      refine ⟨known_node ⟨htyped rfl, by rintro _ ⟨⟩⟩ known_nil, ?_⟩
      rintro ⟨_, hother, hfree⟩
      cases hother
      exact ⟨name, id, rfl, rfl, hfree, hlookup⟩

/-! ## The walk -/

section Lists

variable {exempt : Span → Prop}

/-- Several expressions are visited one after the other, each as the hypothesis tells. -/
theorem visits_inferAll {es : List Expr}
    (heach : ∀ e ∈ es, ∀ {before : Scope}, before.Sane ambient.own →
      ambient.Visits (inferExpr ambient.setting e) before fun result after =>
        Known exempt after.symbols result.nodes)
    (hsane : before.Sane ambient.own) :
    ambient.Visits (inferAll ambient.setting es) before fun results after =>
      Known exempt after.symbols (Expr.nodesAll results) := by
  induction es generalizing before with
  | nil => exact visits_pure hsane known_nil
  | cons e es ih =>
      obtain ⟨he, hes⟩ := List.forall_mem_cons.mp heach
      refine visits_bind (he hsane) fun result middle hfirst => ?_
      refine visits_bind (ih hes hfirst.sane) fun results after hrest => ?_
      exact visits_pure hrest.sane
        (known_append.mpr ⟨hfirst.holds.mono hrest.keeps, hrest.holds⟩)

end Lists

/-- The values of keyword arguments are visited; the names stay. -/
theorem visits_inferKeywords {keywords : List (String × Expr)}
    (heach : ∀ e ∈ keywords.map Prod.snd, ∀ {before : Scope},
      before.Sane ambient.own →
        ambient.Reads (inferExpr ambient.setting e) before)
    (hsane : before.Sane ambient.own) :
    ambient.Visits (inferKeywords ambient.setting keywords) before fun results after =>
      AllDetermined after.symbols (Expr.nodesAll (results.map Prod.snd)) ∧
      results.map Prod.fst = keywords.map Prod.fst := by
  induction keywords generalizing before with
  | nil => exact visits_pure hsane ⟨known_nil, rfl⟩
  | cons keyword keywords ih =>
      obtain ⟨he, hes⟩ := List.forall_mem_cons.mp heach
      refine visits_bind (he hsane) fun result middle hfirst => ?_
      refine visits_bind (ih hes hfirst.sane) fun results after hrest => ?_
      refine visits_pure hrest.sane ⟨?_, congrArg (keyword.1 :: ·) hrest.holds.2⟩
      exact known_append.mpr ⟨hfirst.holds.mono hrest.keeps, hrest.holds.1⟩

theorem visits_inferPart {part : Option Expr}
    (heach : ∀ e ∈ part.toList, ∀ {before : Scope}, before.Sane ambient.own →
      ambient.Reads (inferExpr ambient.setting e) before)
    (hsane : before.Sane ambient.own) :
    ambient.Visits (inferPart ambient.setting part) before fun result after =>
      AllDetermined after.symbols (Expr.nodesAll result.toList) := by
  cases part with
  | none => exact visits_pure hsane known_nil
  | some e =>
      refine visits_bind (heach e (List.mem_singleton_self e) hsane) fun result after hfirst => ?_
      refine visits_pure hfirst.sane ?_
      simpa only [Option.toList_some, Expr.nodesAll, List.append_nil] using hfirst.holds

/-- An expression of the source that is read is determined throughout. -/
theorem reads_inferExpr {e : Expr} (hread : e.IsRead) (hadmits : ambient.Admits e.nodes)
    (hsane : before.Sane ambient.own) :
    ambient.Reads (inferExpr ambient.setting e) before := by
  induction e using Expr.induct generalizing before with
  | hstep e ih =>
      have hparts : ∀ part ∈ e.children, ∀ {before : Scope},
          before.Sane ambient.own →
            ambient.Reads (inferExpr ambient.setting part) before :=
        fun part hpart _ hsane => ih part hpart (hread.part hpart) (hadmits.below.part hpart) hsane
      have hself := hread e e.mem_nodes_self
      cases e with
      | name note id access =>
          obtain rfl : access = .load := hself.1
          simp only [inferExpr]
          exact reads_visitName id hsane
      | const note value => exact visits_pure hsane (determined_constantOf _ _ _)
      | ellipsis note =>
          exact visits_pure hsane (known_node ⟨rfl, by rintro _ ⟨⟩⟩ known_nil)
      | binOp note left op right =>
          simp only [inferExpr]
          refine visits_bind (hparts left List.mem_cons_self hsane) fun left' middle hfirst => ?_
          refine visits_bind (hparts right (by simp [Expr.children]) hfirst.sane)
            fun right' after hsecond => ?_
          refine visits_apply hsecond.sane (Regular.mono ?_ fun _ => Usable.nodes)
          exact regular_typeBinOp op (AllDetermined.usable (hfirst.holds.mono hsecond.keeps))
            (AllDetermined.usable hsecond.holds)
      | boolOp note op values =>
          simp only [inferExpr]
          split
          · exact visits_refuse ErrorKind.noConfusion
          · refine visits_bind (visits_inferAll hparts hsane) fun values' after hvalues => ?_
            exact visits_apply hvalues.sane (regular_ok (determined_typeBoolOp op hvalues.holds))
      | unaryOp note op operand =>
          simp only [inferExpr]
          refine visits_bind (hparts operand List.mem_cons_self hsane)
            fun operand' after hpart => ?_
          exact visits_apply hpart.sane (builds_typeUnaryOp op hpart.holds)
      | compare note left ops comparators =>
          rcases ops with _ | ⟨op, _ | ⟨_, _⟩⟩
          · simp only [inferExpr]
            exact visits_refuse ErrorKind.noConfusion
          · rcases comparators with _ | ⟨right, _ | ⟨_, _⟩⟩
            · simp only [inferExpr]
              exact visits_refuse ErrorKind.noConfusion
            · simp only [inferExpr]
              refine visits_bind (hparts left List.mem_cons_self hsane)
                fun left' middle hfirst => ?_
              refine visits_bind (hparts right (by simp [Expr.children]) hfirst.sane)
                fun right' after hsecond => ?_
              exact visits_apply hsecond.sane
                (builds_typeCompare op (hfirst.holds.mono hsecond.keeps) hsecond.holds)
            · simp only [inferExpr]
              exact visits_refuse ErrorKind.noConfusion
          · simp only [inferExpr]
            exact visits_refuse ErrorKind.noConfusion
      | call note func args keywords =>
          obtain ⟨hfunc, hrest⟩ := List.forall_mem_cons.mp hparts
          obtain ⟨hargs, hkeywords⟩ := List.forall_mem_append.mp hrest
          have hcallee := visits_callee (hread.part List.mem_cons_self) hsane (hfunc hsane)
          simp only [inferExpr]
          refine visits_bind hcallee fun func' first hfirst => ?_
          refine visits_bind (visits_inferAll hargs hfirst.sane) fun args' second hsecond => ?_
          refine visits_bind (visits_inferKeywords hkeywords hsecond.sane)
            fun keywords' last hlast => ?_
          have hlater := hsecond.keeps.trans hlast.keeps
          refine reads_typeCall hlast.sane (hfirst.holds.1.mono hlater)
            (hsecond.holds.mono hlast.keeps) hlast.holds.1 ?_
          -- A free name still means what it meant when the callee was visited.
          rintro rfl
          obtain rfl := List.map_eq_nil_iff.mp hlast.holds.2.symm
          by_cases hfree : func.IsFreeName ambient.own
          · exact .inl (((hfirst.holds.2 hfree).mono hlater).native hlast.sane)
          · exact .inr (hadmits (Expr.mem_nodes_self _) hfree)
      | «attribute» note value attr access =>
          simp only [inferExpr]
          refine visits_bind (hparts value List.mem_cons_self hsane) fun value' after hpart => ?_
          exact visits_apply hpart.sane (builds_typeAttribute attr access hpart.holds)
      | subscript note value selector access =>
          simp only [inferExpr]
          refine visits_bind (hparts value List.mem_cons_self hsane) fun value' middle hfirst => ?_
          refine visits_bind (hparts selector (by simp [Expr.children]) hfirst.sane)
            fun selector' after hsecond => ?_
          exact visits_apply hsecond.sane
            (builds_typeSubscript access (hfirst.holds.mono hsecond.keeps) hsecond.holds)
      | index note value =>
          simp only [inferExpr]
          refine visits_bind (hparts value List.mem_cons_self hsane) fun value' after hpart => ?_
          exact visits_apply hpart.sane (builds_typeIndex hpart.holds)
      | slice note lower upper step =>
          obtain ⟨hbounds, hstep⟩ := List.forall_mem_append.mp hparts
          obtain ⟨hlower, hupper⟩ := List.forall_mem_append.mp hbounds
          simp only [inferExpr]
          refine visits_bind (visits_inferPart hlower hsane) fun lower' first hfirst => ?_
          refine visits_bind (visits_inferPart hupper hfirst.sane) fun upper' second hsecond => ?_
          refine visits_bind (visits_inferPart hstep hsecond.sane) fun step' last hlast => ?_
          refine visits_pure hlast.sane (known_node (determined_typed rfl rfl) ?_)
          simp only [Expr.children, Expr.nodesAll_append, known_append]
          exact ⟨⟨hfirst.holds.mono (hsecond.keeps.trans hlast.keeps),
            hsecond.holds.mono hlast.keeps⟩, hlast.holds⟩
      | extSlice note dims =>
          simp only [inferExpr]
          refine visits_bind (visits_inferAll hparts hsane) fun dims' after hdims => ?_
          exact visits_pure hdims.sane (known_node (determined_typed rfl rfl) hdims.holds)
      | tuple note elts access =>
          simp only [inferExpr]
          refine visits_bind (visits_inferAll hparts hsane) fun elts' after helts => ?_
          exact visits_apply helts.sane (regular_ok (usable_typeTuple access helts.holds).nodes)
      | list note elts access =>
          simp only [inferExpr]
          refine visits_bind (visits_inferAll hparts hsane) fun elts' after helts => ?_
          exact visits_pure helts.sane (usable_typeList access helts.holds).nodes
      | dict note keys values =>
          obtain ⟨hkeys, hvalues⟩ := List.forall_mem_append.mp hparts
          simp only [inferExpr]
          refine visits_bind (visits_inferAll hkeys hsane) fun keys' middle hfirst => ?_
          refine visits_bind (visits_inferAll hvalues hfirst.sane) fun values' after hsecond => ?_
          exact visits_apply hsecond.sane (regular_ok
            (determined_typeDict (hfirst.holds.mono hsecond.keeps) hsecond.holds))
      | _ => exact absurd hself.2 (by simp [Expr.isLowered])

end Ambient

end KernelFront.Inference
