import KernelFront.Inference.Stmt
import KernelFront.Proofs.Inference.Visits

/-! # Visits of statements

A store gives its place a type unless the place has one, so after the store the place is determined.
What remains undetermined are the names in displays that are stored to as a whole.
-/

namespace KernelFront.Inference

open Scope (resultSlot)

/-- All expressions of these statements and of those in their bodies are known. -/
def KnownBody (exempt : Span → Prop) (table : SymbolTable) (stmts : List Stmt) : Prop :=
  ∀ stmt ∈ Stmt.nestedBody stmts, Known exempt table stmt.nodes

/-- What a place of the source was visited as. It is determined, or a written name that is bound but
may have no type yet; what stands below it is known. -/
structure Located (exempt : Span → Prop) (table : SymbolTable) (e result : Expr) : Prop where
  below : Known exempt table (Expr.nodesAll result.children)
  root : Determined table result ∨ (e.isStoredName ∧ result.isStoredName ∧ result.span = e.span ∧
    ∃ id, result.binding = some (.symbol id) ∧ (table.get? id).isSome)

section Known

variable {exempt : Span → Prop} {table : SymbolTable} {e result : Expr}

@[simp] theorem knownBody_nil : KnownBody exempt table [] := List.forall_mem_nil _

@[simp] theorem knownBody_append {first second : List Stmt} :
    KnownBody exempt table (first ++ second) ↔
      KnownBody exempt table first ∧ KnownBody exempt table second := by
  unfold KnownBody
  rw [Stmt.nestedBody_append]
  exact List.forall_mem_append

theorem KnownBody.mono {before after : Scope} (hkeeps : before.Keeps after) {stmts : List Stmt}
    (hknown : KnownBody exempt before.symbols stmts) : KnownBody exempt after.symbols stmts :=
  fun stmt hstmt => (hknown stmt hstmt).mono hkeeps

theorem Usable.located (husable : Usable exempt table result) : Located exempt table e result := by
  obtain ⟨hroot, hnodes⟩ := husable
  rw [Expr.nodes_eq] at hnodes
  exact ⟨(known_cons.mp hnodes).2, .inl hroot⟩

theorem Builds.located {outcome : Except TypeError Expr} (hbuilds : Builds table outcome) :
    Regular (Located exempt table e) outcome :=
  Regular.mono hbuilds fun _ hresult => (AllDetermined.usable hresult).located

theorem Located.usable (hlocated : Located exempt table e result)
    (hread : e.isStoredName = false) : Usable exempt table result := by
  have hroot : Determined table result := hlocated.root.resolve_right fun hstored =>
    Bool.false_ne_true (hread.symm.trans hstored.1)
  exact ⟨hroot, known_node hroot hlocated.below⟩

theorem Located.known (hlocated : Located exempt table e result)
    (hexempt : e.isStoredName → exempt e.span) : Known exempt table result.nodes := by
  rw [Expr.nodes_eq]
  refine known_cons.mpr ⟨hlocated.root.imp_right ?_, hlocated.below⟩
  rintro ⟨hname, hstored, hspan, _⟩
  exact ⟨hstored, hspan ▸ hexempt hname⟩

theorem awaited?_of_isStoredName (hstored : e.isStoredName) : e.awaited? = none := by
  cases e with
  | name => rfl
  | _ => cases hstored

/-- A place whose binding has a type is determined. -/
theorem Located.determined (hlocated : Located exempt table e result)
    (htyped : ∀ {id}, result.binding = some (.symbol id) →
      ¬ (table.get? id).any fun var => var.ty.isNone) : Determined table result := by
  rcases hlocated.root with hroot | ⟨_, hstored, _, id, hbinding, hvar⟩
  · exact hroot
  · obtain ⟨var, hvar⟩ := Option.isSome_iff_exists.mp hvar
    have hvarTy := htyped hbinding
    rw [hvar, Option.any_some, Bool.not_eq_true, Option.isNone_eq_false_iff] at hvarTy
    refine ⟨?_, by rw [awaited?_of_isStoredName hstored]; rintro _ ⟨⟩⟩
    rw [hbinding]
    simpa only [HasType, SymbolTable.typeOf?, hvar, Option.bind_some] using hvarTy

/-- A place whose binding is given a type is determined. -/
theorem Located.determined_setType {scope : Scope} {id : SymbolId}
    (hlocated : Located exempt scope.symbols e result)
    (hbinding : result.binding = some (.symbol id)) (ty : Ty) :
    Determined (scope.setType id ty).symbols result := by
  rcases hlocated.root with hroot | ⟨_, hstored, _, other, hother, hvar⟩
  · exact hroot.mono (Scope.keeps_setType scope id ty)
  · cases hother.symm.trans hbinding
    obtain ⟨var, hvar⟩ := Option.isSome_iff_exists.mp hvar
    refine ⟨?_, by rw [awaited?_of_isStoredName hstored]; rintro _ ⟨⟩⟩
    rw [hbinding]
    exact Option.isSome_of_eq_some (SymbolTable.typeOf?_setType_self hvar (some ty))

theorem Located.mono {before after : Scope} (hkeeps : before.Keeps after)
    (hroot : Determined after.symbols result)
    (hlocated : Located exempt before.symbols e result) : Known exempt after.symbols result.nodes :=
  known_node hroot (hlocated.below.mono hkeeps)

end Known

namespace Ambient

/-- A place of the source: the names that are written below it are exempt, and the calls below it
are admitted. -/
structure Stores (ambient : Ambient) (access : Access) (e : Expr) : Prop where
  place : e.IsPlace access
  exempt : ∀ node ∈ Expr.nodesAll e.children, node.isStoredName → ambient.exempt node.span
  admits : ambient.Admits (Expr.nodesAll e.children)

variable {ambient : Ambient} {before : Scope} {span : Span}

/-! ## Places -/

theorem Stores.part {e part : Expr} {access : Access} (hstores : ambient.Stores access e)
    (hpart : part ∈ e.children) (hplace : part.IsPlace .store) : ambient.Stores .store part := by
  have hnodes {node : Expr} (hnode : node ∈ Expr.nodesAll part.children) :
      node ∈ Expr.nodesAll e.children := by
    refine Expr.mem_nodesAll.mpr ⟨part, hpart, ?_⟩
    rw [Expr.nodes_eq]
    exact List.mem_cons_of_mem part hnode
  exact ⟨hplace, fun node hnode => hstores.exempt node (hnodes hnode),
    hstores.admits.mono fun _ hnode => hnodes hnode⟩

theorem Stores.exemptPart {e part : Expr} {access : Access} (hstores : ambient.Stores access e)
    (hpart : part ∈ e.children) (hstored : part.isStoredName) : ambient.exempt part.span :=
  hstores.exempt part (Expr.mem_nodesAll.mpr ⟨part, hpart, part.mem_nodes_self⟩) hstored

theorem visits_elements {elts : List Expr} (hsane : before.Sane ambient.own)
    (heach : ∀ e ∈ elts, ∀ {before : Scope}, before.Sane ambient.own →
      (e.isStoredName → ambient.exempt e.span) ∧
        ambient.Visits (inferExpr ambient.setting e) before fun result after =>
          Located ambient.exempt after.symbols e result) :
    ambient.Visits (inferAll ambient.setting elts) before fun results after =>
      Known ambient.exempt after.symbols (Expr.nodesAll results) := by
  refine visits_inferAll (fun e he {_} hsane => ?_) hsane
  obtain ⟨hexempt, hvisits⟩ := heach e he hsane
  exact hvisits.mono fun result after hfound => hfound.holds.known hexempt

/-- A visited place. Attributes and elements are read up to the place itself, and the elements of a
display are places again. -/
theorem visits_place {e : Expr} {access : Access} (hstores : ambient.Stores access e)
    (hsane : before.Sane ambient.own) :
    ambient.Visits (inferExpr ambient.setting e) before fun result after =>
      Located ambient.exempt after.symbols e result := by
  have hplace := hstores.place
  induction hplace generalizing before with
  | @name note id access =>
      simp only [inferExpr]
      refine (visits_visitName id access hsane).mono ?_
      rintro _ after ⟨_, _, slot, rfl, hlookup, htyped⟩
      refine ⟨known_nil, ?_⟩
      cases access with
      | load => exact .inl ⟨htyped rfl, by rintro _ ⟨⟩⟩
      | store =>
          obtain ⟨var, hvar, _⟩ := SymbolTable.lookup_some hlookup
          exact .inr ⟨rfl, rfl, rfl, slot, rfl, Option.isSome_of_eq_some hvar⟩
  | «attribute» hvalue =>
      have hreads := reads_inferExpr hvalue (hstores.admits.part List.mem_cons_self) hsane
      simp only [inferExpr]
      refine visits_bind hreads fun value after hpart => ?_
      exact visits_apply hpart.sane (builds_typeAttribute _ _ hpart.holds).located
  | @subscript note value selector access hvalue hselector =>
      have hreads := reads_inferExpr hvalue (hstores.admits.part List.mem_cons_self) hsane
      have hselects : ambient.Admits selector.nodes :=
        hstores.admits.part (by simp [Expr.children])
      simp only [inferExpr]
      refine visits_bind hreads fun value' middle hfirst => ?_
      refine visits_bind (reads_inferExpr hselector hselects hfirst.sane)
        fun selector' after hsecond => ?_
      exact visits_apply hsecond.sane
        (builds_typeSubscript _ (hfirst.holds.mono hsecond.keeps) hsecond.holds).located
  | @tuple note elts access helts ih =>
      have helts := visits_elements hsane fun e he _ hsane =>
        ⟨hstores.exemptPart he, ih e he (hstores.part he (helts e he)) hsane⟩
      simp only [inferExpr]
      refine visits_bind helts fun elts' after hparts => ?_
      exact visits_apply hparts.sane (regular_ok (usable_typeTuple access hparts.holds).located)
  | @list note elts access helts ih =>
      have helts := visits_elements hsane fun e he _ hsane =>
        ⟨hstores.exemptPart he, ih e he (hstores.part he (helts e he)) hsane⟩
      simp only [inferExpr]
      refine visits_bind helts fun elts' after hparts => ?_
      exact visits_pure hparts.sane (usable_typeList access hparts.holds).located

/-! ## Stores -/

theorem known_assign {exempt : Span → Prop} {table : SymbolTable} {target value : Expr}
    (htarget : Known exempt table target.nodes) (hvalue : Known exempt table value.nodes) :
    KnownBody exempt table [.assign span [target] value] := by
  refine List.forall_mem_singleton.mpr ?_
  simp only [Stmt.nodes, Stmt.exprs, List.singleton_append, Expr.nodesAll, List.append_nil,
    known_append]
  exact ⟨htarget, hvalue⟩

/-- After a store the place is determined: either it had a type already, or it takes that of the
value. -/
theorem visits_typeStore {e target value : Expr}
    (htarget : Located ambient.exempt before.symbols e target)
    (hvalue : Usable ambient.exempt before.symbols value)
    (hsane : before.Sane ambient.own) :
    ambient.Visits (typeStore target value span) before fun stmt after =>
      KnownBody ambient.exempt after.symbols [stmt] := by
  have hsettled {rhs : Ty} (hroot : Determined before.symbols target) :
      ambient.Visits (apply fun table => do
        let lhs ← typeOf table target
        if lhs ≠ rhs then discard (join lhs rhs value.span)
        pure (.assign span [target] (value.convert table lhs))) before fun stmt after =>
          KnownBody ambient.exempt after.symbols [stmt] := by
    refine visits_apply hsane ((regular_typeOf hroot).bind fun lhs _ => ?_)
    have hassign : Regular (fun stmt => KnownBody ambient.exempt before.symbols [stmt])
        (pure (.assign span [target] (value.convert before.symbols lhs))) :=
      regular_pure (known_assign (known_node hroot htarget.below) (known_convert hvalue.nodes lhs))
    split
    · exact (regular_join lhs rhs value.span).discard.bind fun _ _ => hassign
    · exact hassign
  unfold typeStore
  refine visits_get hsane (visits_apply_bind hsane (regular_typeOf hvalue.root) fun rhs _ => ?_)
  dsimp only
  split
  · rename_i id hbinding
    split
    · rename_i huntyped
      have hkeeps := Scope.keeps_setType before id rhs
      have hsane' := hsane.setType rhs (.inr huntyped)
      refine visits_modify_bind hkeeps hsane' (visits_pure hsane' ?_)
      have hroot := htarget.determined_setType hbinding rhs
      exact known_assign (htarget.mono hkeeps hroot) (hvalue.nodes.mono hkeeps)
    · rename_i huntyped
      refine hsettled (htarget.determined fun hother => ?_)
      cases hbinding.symm.trans hother
      exact huntyped
  · rename_i hprivate
    exact hsettled (htarget.determined fun hbinding => absurd hbinding (hprivate _))

/-- A loop target takes the elements of an iterable. -/
theorem visits_bindElement {e target : Expr} {element : Ty}
    (htarget : Located ambient.exempt before.symbols e target)
    (hsane : before.Sane ambient.own) :
    ambient.Visits (bindElement target element) before fun _ after =>
      Known ambient.exempt after.symbols target.nodes := by
  have hsettled (hroot : Determined before.symbols target) :
      ambient.Visits (apply fun table => do
        let current ← typeOf table target
        if current ≠ element then discard (join current element target.span)) before
          fun _ after => Known ambient.exempt after.symbols target.nodes := by
    refine visits_apply hsane ((regular_typeOf hroot).bind fun current _ => ?_)
    have hknown := known_node hroot htarget.below
    split
    · exact (regular_join current element target.span).discard.mono fun _ _ => hknown
    · exact regular_pure hknown
  unfold bindElement
  refine visits_get hsane ?_
  dsimp only
  split
  · rename_i id hbinding
    split
    · rename_i huntyped
      have hkeeps := Scope.keeps_setType before id element
      have hroot := htarget.determined_setType hbinding element
      exact visits_modify hkeeps (hsane.setType element (.inr huntyped)) (htarget.mono hkeeps hroot)
    · rename_i huntyped
      refine hsettled (htarget.determined fun hother => ?_)
      cases hbinding.symm.trans hother
      exact huntyped
  · rename_i hprivate
    exact hsettled (htarget.determined fun hbinding => absurd hbinding (hprivate _))

/-- Elements are stored one by one. -/
theorem visits_storeAll {targets elements : List Expr}
    (htargets : ∀ target ∈ targets, ambient.Stores .store target)
    (helements : ∀ element ∈ elements, Usable ambient.exempt before.symbols element)
    (hsane : before.Sane ambient.own) :
    ambient.Visits (storeAll ambient.setting span targets elements) before fun stmts after =>
      KnownBody ambient.exempt after.symbols stmts := by
  induction targets generalizing elements before with
  | nil =>
      simp only [storeAll]
      exact visits_pure hsane knownBody_nil
  | cons target targets ih =>
      cases elements with
      | nil =>
          simp only [storeAll]
          exact visits_pure hsane knownBody_nil
      | cons element elements =>
          obtain ⟨htarget, htargets⟩ := List.forall_mem_cons.mp htargets
          obtain ⟨helement, helements⟩ := List.forall_mem_cons.mp helements
          simp only [storeAll]
          refine visits_bind (visits_place htarget hsane) fun target' first hfirst => ?_
          refine visits_bind (visits_typeStore hfirst.holds (helement.mono hfirst.keeps)
            hfirst.sane) fun stmt second hsecond => ?_
          have hkeeps := hfirst.keeps.trans hsecond.keeps
          refine visits_bind (ih htargets (fun e he => (helements e he).mono hkeeps) hsecond.sane)
            fun stmts last hlast => ?_
          refine visits_pure hlast.sane ?_
          rw [← List.singleton_append, knownBody_append]
          exact ⟨hsecond.holds.mono hlast.keeps, hlast.holds⟩

/-! ## Unpacking -/

theorem regular_unpackedSize {table : SymbolTable} {value : Expr} (hroot : Determined table value) :
    Regular (fun _ => True) (unpackedSize value table) := by
  refine (regular_typeOf hroot).bind fun ty _ => ?_
  split
  · trivial
  · trivial
  · trivial
  · exact regular_throw ErrorKind.noConfusion

theorem regular_unpackedElements {setting : Setting} {table : SymbolTable} {value : Expr}
    (hvalue : AllDetermined table value.nodes) :
    Regular (fun elements => AllDetermined table (Expr.nodesAll elements))
      (unpackedElements setting value table) := by
  have hparts : AllDetermined table (Expr.nodesAll value.children) := by
    rw [Expr.nodes_eq] at hvalue
    exact (known_cons.mp hvalue).2
  refine (regular_typeOf hvalue.root).bind fun ty _ => ?_
  split
  · refine regular_pure (known_nodesAll.mpr (List.forall_mem_map.mpr fun i _ => ?_))
    exact determined_subscript .load hvalue (determined_constantOf _ _ _)
  · exact regular_pure hparts
  · exact regular_pure hparts
  · split
    · refine regular_pure (known_nodesAll.mpr (List.forall_mem_map.mpr fun item _ => ?_))
      exact determined_constantOf _ _ _
    · exact regular_throw ErrorKind.noConfusion

theorem visits_unpack {targets : List Expr} {value : Expr}
    (htargets : ∀ target ∈ targets, ambient.Stores .store target)
    (hvalue : AllDetermined before.symbols value.nodes)
    (hsane : before.Sane ambient.own) :
    ambient.Visits (unpack ambient.setting span targets value) before fun stmts after =>
      KnownBody ambient.exempt after.symbols stmts := by
  refine visits_apply_bind hsane (regular_unpackedSize hvalue.root) fun size _ => ?_
  split
  · exact visits_refuse ErrorKind.noConfusion
  · refine visits_apply_bind hsane (regular_unpackedElements hvalue) fun elements helements => ?_
    refine visits_storeAll htargets (fun element helement => ?_) hsane
    exact AllDetermined.usable (known_nodesAll.mp helements element helement)

theorem visits_inferAssign {targets : List Expr} {value : Expr}
    (hplaces : ∀ place ∈ Stmt.unpackedTargets targets, ambient.Stores .store place)
    (hvalue : AllDetermined before.symbols value.nodes)
    (hsane : before.Sane ambient.own) :
    ambient.Visits (inferAssign ambient.setting span targets value) before fun stmts after =>
      KnownBody ambient.exempt after.symbols stmts := by
  unfold inferAssign
  split
  · exact visits_unpack hplaces hvalue hsane
  · exact visits_unpack hplaces hvalue hsane
  · rename_i target htuple hlist
    have hsingle : Stmt.unpackedTargets [target] = [target] := by
      cases target with
      | tuple => exact (htuple _ _ _ rfl).elim
      | list => exact (hlist _ _ _ rfl).elim
      | _ => rfl
    rw [hsingle] at hplaces
    exact visits_storeAll hplaces (List.forall_mem_singleton.mpr hvalue.usable) hsane
  · have hseveral : Stmt.unpackedTargets targets = targets := by
      simp only [Stmt.unpackedTargets]
    rw [hseveral] at hplaces
    exact visits_unpack hplaces hvalue hsane

/-! ## Returns -/

/-- The binding of the result is given a type. -/
theorem typeOf?_setResult (hsane : before.Sane ambient.own) (ty : Ty) :
    (before.setType resultSlot ty).symbols.typeOf? resultSlot = some ty := by
  obtain ⟨var, hvar, _⟩ := hsane.anonymous
  exact SymbolTable.typeOf?_setType_self hvar (some ty)

theorem visits_returnNothing (hsane : before.Sane ambient.own) :
    ambient.Visits (returnNothing span) before fun stmt after =>
      KnownBody ambient.exempt after.symbols [stmt] := by
  have hreturn : ambient.Visits (do
      modify fun scope => scope.setType resultSlot .void
      pure (.ret span none)) before fun stmt after =>
        KnownBody ambient.exempt after.symbols [stmt] := by
    have hsane' := hsane.setType .void (.inl rfl)
    refine visits_modify_bind (Scope.keeps_setType _ _ _) hsane' (visits_pure hsane' ?_)
    exact List.forall_mem_singleton.mpr known_nil
  unfold returnNothing
  refine visits_get hsane ?_
  split
  · exact hreturn
  · exact hreturn
  · exact visits_refuse ErrorKind.noConfusion

/-- A returned value waits for the result, which has a type from then on. -/
theorem visits_returnValue {value : Expr} (hvalue : AllDetermined before.symbols value.nodes)
    (hsane : before.Sane ambient.own) :
    ambient.Visits (returnValue span value) before fun stmt after =>
      KnownBody ambient.exempt after.symbols [stmt] := by
  have hreturn (ty : Ty) : ambient.Visits (do
      modify fun scope => scope.setType resultSlot ty
      let note : Note := { span := value.span, binding := some (.symbol resultSlot) }
      pure (.ret span (some (.deferredCoercion note value resultSlot)))) before fun stmt after =>
        KnownBody ambient.exempt after.symbols [stmt] := by
    have hkeeps := Scope.keeps_setType before resultSlot ty
    have hsane' := hsane.setType ty (.inl rfl)
    refine visits_modify_bind hkeeps hsane' (visits_pure hsane' ?_)
    have hresult := Option.isSome_of_eq_some (typeOf?_setResult hsane ty)
    refine List.forall_mem_singleton.mpr (known_append.mpr ⟨known_node ⟨hresult, ?_⟩ ?_, known_nil⟩)
    · rintro _ ⟨⟩
      exact hresult
    · simpa only [Expr.children, Expr.nodesAll, List.append_nil] using
        (AllDetermined.known hvalue).mono hkeeps
  refine visits_apply_bind hsane (regular_typeOf hvalue.root) fun ty _ => visits_get hsane ?_
  dsimp only
  split
  · exact hreturn ty
  · exact visits_apply_bind hsane (regular_join _ _ _) fun widened _ => hreturn widened

theorem visits_inferReturn {value : Option Expr}
    (hvalue : AllDetermined before.symbols (Expr.nodesAll value.toList))
    (hsane : before.Sane ambient.own) :
    ambient.Visits (inferReturn span value) before fun stmt after =>
      KnownBody ambient.exempt after.symbols [stmt] := by
  cases value with
  | none => exact visits_returnNothing hsane
  | some value =>
      refine visits_get hsane ?_
      split
      · exact visits_returnNothing hsane
      · refine visits_returnValue ?_ hsane
        simpa only [Option.toList_some, Expr.nodesAll, List.append_nil] using hvalue

/-! ## Statements -/

/-- A statement of the source, its bodies apart: the names written in displays among its places are
exempt, and its calls are admitted. -/
structure Accepts (ambient : Ambient) (stmt : Stmt) : Prop where
  source : stmt.IsSource
  exempt : ∀ name ∈ stmt.strays, ambient.exempt name.span
  admits : ambient.Admits stmt.nodes

theorem Accepts.stores {stmt : Stmt} (haccepts : ambient.Accepts stmt) :
    ∀ place ∈ stmt.places, ambient.Stores .store place := by
  intro place hplace
  refine ⟨haccepts.source.places place hplace, fun node hnode hstored => ?_,
    haccepts.admits.mono fun node hnode => ?_⟩
  · refine haccepts.exempt node (List.mem_filter.mpr ⟨?_, hstored⟩)
    obtain ⟨part, hpart, hnode⟩ := Expr.mem_nodesAll.mp hnode
    exact Expr.mem_nodesAll.mpr ⟨part, List.mem_flatMap.mpr ⟨place, hplace, hpart⟩, hnode⟩
  · refine Stmt.mem_nodes_of_place hplace ?_
    rw [Expr.nodes_eq]
    exact List.mem_cons_of_mem place hnode

theorem visits_inferTest {test : Expr} (hread : test.IsRead) (hadmits : ambient.Admits test.nodes)
    (hsane : before.Sane ambient.own) :
    ambient.Reads (inferTest ambient.setting test) before := by
  refine visits_bind (reads_inferExpr hread hadmits hsane) fun test' after htest => ?_
  exact visits_apply htest.sane (regular_ok (known_convert htest.holds .bool))

/-- An optional part that is read. -/
theorem visits_readPart {part : Option Expr} (hread : ∀ e ∈ part.toList, e.IsRead)
    (hadmits : ambient.Admits (Expr.nodesAll part.toList)) (hsane : before.Sane ambient.own) :
    ambient.Visits (inferPart ambient.setting part) before fun result after =>
      AllDetermined after.symbols (Expr.nodesAll result.toList) := by
  refine visits_inferPart (fun e he {_} hsane => ?_) hsane
  exact reads_inferExpr (hread e he) (hadmits.part he) hsane

theorem visits_inferPrinted {values : List Expr} (hread : ∀ value ∈ values, value.IsRead)
    (hadmits : ambient.Admits (Expr.nodesAll values))
    (hsane : before.Sane ambient.own) :
    ambient.Visits (inferPrinted ambient.setting values) before fun results after =>
      AllDetermined after.symbols (Expr.nodesAll results) := by
  induction values generalizing before with
  | nil => exact visits_pure hsane known_nil
  | cons value values ih =>
      obtain ⟨hvalue, hvalues⟩ := List.forall_mem_cons.mp hread
      obtain ⟨hhead, hrest⟩ := hadmits.append
      refine visits_bind (reads_inferExpr hvalue hhead hsane) fun value' middle hfirst => ?_
      have hboxed : Builds middle.symbols (.ok (value'.convert middle.symbols .object)) :=
        regular_ok (known_convert hfirst.holds .object)
      refine visits_apply_bind hfirst.sane hboxed fun boxed hboxed => ?_
      refine visits_bind (ih hvalues hrest hfirst.sane) fun results after hlast => ?_
      exact visits_pure hlast.sane (known_append.mpr ⟨hboxed.mono hlast.keeps, hlast.holds⟩)

theorem regular_elementType {setting : Setting} {table : SymbolTable} {iter : Expr}
    (hroot : Determined table iter) : Regular (fun _ => True) (elementType setting iter table) := by
  refine (regular_typeOf hroot).bind fun ty _ => ?_
  split
  · trivial
  · split <;> trivial
  · exact regular_throw ErrorKind.noConfusion

theorem knownBody_singleton {exempt : Span → Prop} {table : SymbolTable} {stmt : Stmt}
    (hstmt : ∀ inner ∈ stmt.nested, Known exempt table inner.nodes) :
    KnownBody exempt table [stmt] := by
  simpa only [KnownBody, Stmt.nestedBody, List.append_nil] using hstmt

/-- An augmented assignment reads its place before it stores there. -/
theorem visits_augAssign {target value : Expr} {op : BinOp}
    (hstores : ambient.Stores .store target) (hread : value.IsRead)
    (hadmits : ambient.Admits value.nodes) (hsane : before.Sane ambient.own) :
    ambient.Visits (inferStmt ambient.setting (.augAssign span target op value)) before
      fun stmts after => KnownBody ambient.exempt after.symbols stmts := by
  -- What stands below the place is the same when it is read.
  have hcurrent : ambient.Stores .load (target.withAccess .load) := by
    refine ⟨hstores.place.withAccess .load, ?_, ?_⟩ <;> rw [Expr.children_withAccess]
    · exact hstores.exempt
    · exact hstores.admits
  simp only [inferStmt, inferExpr, bind_assoc]
  refine visits_bind (visits_place hcurrent hsane) fun left first hfirst => ?_
  refine visits_bind (reads_inferExpr hread hadmits hfirst.sane) fun right second hsecond => ?_
  have hleft := hfirst.holds.usable (Expr.isStoredName_withAccess_load target)
  refine visits_apply_bind hsecond.sane (regular_typeBinOp op (hleft.mono hsecond.keeps)
    (AllDetermined.usable hsecond.holds)) fun combined hcombined => ?_
  exact visits_storeAll (List.forall_mem_singleton.mpr hstores)
    (List.forall_mem_singleton.mpr hcombined) hsecond.sane

mutual

/-- Visiting a statement of the source leaves statements whose expressions are known. -/
theorem visits_inferStmt {stmt : Stmt} {before : Scope}
    (haccepts : ∀ inner ∈ stmt.nested, ambient.Accepts inner)
    (hsane : before.Sane ambient.own) :
    ambient.Visits (inferStmt ambient.setting stmt) before fun stmts after =>
      KnownBody ambient.exempt after.symbols stmts := by
  cases stmt with
  | assign span targets value =>
      have hself := haccepts _ List.mem_cons_self
      have hadmits := hself.admits.part (List.mem_append_right targets List.mem_cons_self)
      simp only [inferStmt]
      refine visits_bind (reads_inferExpr hself.source.2 hadmits hsane)
        fun value' after hvalue => ?_
      exact visits_inferAssign hself.stores hvalue.holds hvalue.sane
  | augAssign span target op value =>
      have hself := haccepts _ List.mem_cons_self
      exact visits_augAssign (hself.stores target List.mem_cons_self) hself.source.2
        (hself.admits.part (List.mem_cons_of_mem target List.mem_cons_self)) hsane
  | forIn span target iter body orelse index =>
      have hself := haccepts _ List.mem_cons_self
      have hbodies := (List.forall_mem_append.mp (List.forall_mem_cons.mp haccepts).2).1
      obtain ⟨_, hiter, rfl⟩ := hself.source
      have hadmits := hself.admits.part (List.mem_cons_of_mem target List.mem_cons_self)
      simp only [inferStmt]
      split
      · exact visits_refuse ErrorKind.noConfusion
      · split
        · exact visits_refuse ErrorKind.noConfusion
        · refine visits_bind (reads_inferExpr hiter hadmits hsane) fun iter' first hfirst => ?_
          refine visits_apply_bind hfirst.sane (regular_elementType hfirst.holds.root)
            fun element _ => ?_
          refine visits_bind (visits_place (hself.stores target List.mem_cons_self) hfirst.sane)
            fun target' second hsecond => ?_
          refine visits_bind (visits_bindElement hsecond.holds hsecond.sane)
            fun _ third hthird => ?_
          refine visits_bind (visits_inferBody hbodies hthird.sane) fun body' last hlast => ?_
          have hlater := hthird.keeps.trans hlast.keeps
          refine visits_pure hlast.sane (knownBody_singleton ?_)
          simp only [Stmt.nested, Stmt.nestedBody, List.append_nil, List.forall_mem_cons]
          refine ⟨?_, hlast.holds⟩
          simp only [Stmt.nodes, Stmt.exprs, Option.toList_none, Expr.nodesAll, List.append_nil,
            known_append]
          exact ⟨hthird.holds.mono hlast.keeps,
            (AllDetermined.known hfirst.holds).mono (hsecond.keeps.trans hlater)⟩
  | whileLoop span test body orelse =>
      have hself := haccepts _ List.mem_cons_self
      have hbodies := (List.forall_mem_append.mp (List.forall_mem_cons.mp haccepts).2).1
      have hadmits := hself.admits.part List.mem_cons_self
      simp only [inferStmt]
      split
      · exact visits_refuse ErrorKind.noConfusion
      · refine visits_bind (visits_inferTest (hself.source test List.mem_cons_self) hadmits hsane)
          fun test' middle htest => ?_
        refine visits_bind (visits_inferBody hbodies htest.sane) fun body' after hbody => ?_
        refine visits_pure hbody.sane (knownBody_singleton ?_)
        simp only [Stmt.nested, Stmt.nestedBody, List.append_nil, List.forall_mem_cons]
        refine ⟨known_append.mpr ⟨?_, known_nil⟩, hbody.holds⟩
        exact (AllDetermined.known htest.holds).mono hbody.keeps
  | branch span test body orelse =>
      have hself := haccepts _ List.mem_cons_self
      obtain ⟨hbody, horelse⟩ := List.forall_mem_append.mp (List.forall_mem_cons.mp haccepts).2
      have hadmits := hself.admits.part List.mem_cons_self
      simp only [inferStmt]
      refine visits_bind (visits_inferTest (hself.source test List.mem_cons_self) hadmits hsane)
        fun test' first htest => ?_
      refine visits_bind (visits_inferBody hbody htest.sane) fun body' second hsecond => ?_
      refine visits_bind (visits_inferBody horelse hsecond.sane) fun orelse' last hlast => ?_
      refine visits_pure hlast.sane (knownBody_singleton ?_)
      simp only [Stmt.nested, List.forall_mem_cons, List.forall_mem_append]
      refine ⟨known_append.mpr ⟨?_, known_nil⟩, hsecond.holds.mono hlast.keeps, hlast.holds⟩
      exact (AllDetermined.known htest.holds).mono (hsecond.keeps.trans hlast.keeps)
  | ret span value =>
      have hself := haccepts _ List.mem_cons_self
      simp only [inferStmt]
      refine visits_bind (visits_readPart hself.source hself.admits hsane)
        fun value' middle hvalue => ?_
      refine visits_bind (visits_inferReturn hvalue.holds hvalue.sane) fun stmt after hstmt => ?_
      exact visits_pure hstmt.sane hstmt.holds
  | expr span value =>
      have hself := haccepts _ List.mem_cons_self
      have hread := hself.source value List.mem_cons_self
      simp only [inferStmt]
      refine visits_bind (reads_inferExpr hread (hself.admits.part List.mem_cons_self) hsane)
        fun value' after hvalue => ?_
      refine visits_pure hvalue.sane (knownBody_singleton (List.forall_mem_singleton.mpr ?_))
      exact known_append.mpr ⟨AllDetermined.known hvalue.holds, known_nil⟩
  | print span values dest newline =>
      have hself := haccepts _ List.mem_cons_self
      obtain ⟨hdest, hvalues⟩ := List.forall_mem_append.mp hself.source
      have hadmits := hself.admits
      rw [Stmt.nodes, Stmt.exprs, Expr.nodesAll_append] at hadmits
      obtain ⟨hdests, hprinted⟩ := hadmits.append
      simp only [inferStmt]
      refine visits_bind (visits_inferPrinted hvalues hprinted hsane)
        fun values' middle hfirst => ?_
      refine visits_bind (visits_readPart hdest hdests hfirst.sane) fun dest' after hsecond => ?_
      refine visits_pure hsecond.sane (knownBody_singleton (List.forall_mem_singleton.mpr ?_))
      simp only [Stmt.nodes, Stmt.exprs, Expr.nodesAll_append, known_append]
      exact ⟨AllDetermined.known hsecond.holds,
        (AllDetermined.known hfirst.holds).mono hsecond.keeps⟩
  | global => exact visits_refuse ErrorKind.noConfusion
  | _ => exact visits_pure hsane (knownBody_singleton (List.forall_mem_singleton.mpr known_nil))
termination_by structural stmt

/-- Visiting a body of the source leaves statements whose expressions are known. -/
theorem visits_inferBody {body : List Stmt} {before : Scope}
    (haccepts : ∀ inner ∈ Stmt.nestedBody body, ambient.Accepts inner)
    (hsane : before.Sane ambient.own) :
    ambient.Visits (inferBody ambient.setting body) before fun stmts after =>
      KnownBody ambient.exempt after.symbols stmts := by
  cases body with
  | nil => exact visits_pure hsane knownBody_nil
  | cons stmt body =>
      obtain ⟨hstmt, hbody⟩ := List.forall_mem_append.mp haccepts
      simp only [inferBody]
      refine visits_bind (visits_inferStmt hstmt hsane) fun stmts middle hfirst => ?_
      refine visits_bind (visits_inferBody hbody hfirst.sane) fun rest after hrest => ?_
      exact visits_pure hrest.sane
        (knownBody_append.mpr ⟨hfirst.holds.mono hrest.keeps, hrest.holds⟩)
termination_by structural body

end

end Ambient

end KernelFront.Inference
