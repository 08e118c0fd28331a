import KernelFront.Proofs.Inference.Tracking
import KernelFront.Proofs.Inference.Unpacking

/-! # Unpacking constants

A tuple of constants can be unpacked where it is written, or under a name that it was stored in. In
the first case the visited elements themselves are stored in the targets, in the second case the
constants that the type of the name records, as new literals. Both ways give each target the same
constant and the same type: what a visited constant is bound to and what a literal of that constant
is bound to do not differ, at any depth of tuples in tuples.
-/

namespace KernelFront

/-- Different names mean different bindings. -/
theorem SymbolTable.lookup_inj {table : SymbolTable} {name other : String} {id : SymbolId}
    (hname : table.lookup name = some id) (hother : table.lookup other = some id) :
    name = other := by
  obtain ⟨var, hvar, hnamed⟩ := lookup_some hname
  obtain ⟨same, hsame, hsameNamed⟩ := lookup_some hother
  obtain rfl := Option.some.inj (hvar.symm.trans hsame)
  exact Option.some.inj (hnamed.symm.trans hsameNamed)

namespace Inference

variable {setting : Setting} {scope : Scope} {table : SymbolTable} {e : Expr} {value : Constant}
  {span : Span}

/-! ## Constant expressions -/

/-- A binding of a constant, with the type that this constant has. -/
structure HoldsConstant (var : Variable) (value : Constant) : Prop where
  isConstant : var.isConstant = true
  constantValue : var.constantValue = some value
  ty : var.ty = some (.ofConstant value)

theorem holdsConstant_constant (value : Constant) :
    HoldsConstant (.constant value (.ofConstant value)) value :=
  ⟨rfl, rfl, rfl⟩

/-- A visited expression that is bound to a constant. -/
def HasConstant (table : SymbolTable) (e : Expr) (value : Constant) : Prop :=
  ∃ var, e.boundVar? table = some var ∧ HoldsConstant var value

mutual

/-- An expression of the source that stands for a constant: a literal, an ellipsis, a name that is
bound to a constant as `None` is, or a tuple of such expressions. -/
inductive Denotes (table : SymbolTable) : Expr → Constant → Prop where
  | literal (note : Note) (value : Constant) : Denotes table (.const note value) value
  | ellipsis (note : Note) : Denotes table (.ellipsis note) .ellipsis
  | name {note : Note} {name : String} {id : SymbolId} {var : Variable} {value : Constant}
      (hid : table.lookup name = some id) (hvar : table.get? id = some var)
      (hvalue : HoldsConstant var value) : Denotes table (.name note name .load) value
  | tuple {note : Note} {elts : List Expr} {items : List Constant}
      (helts : DenotesAll table elts items) : Denotes table (.tuple note elts .load) (.tuple items)

/-- Expressions that stand for constants, one by one. -/
inductive DenotesAll (table : SymbolTable) : List Expr → List Constant → Prop where
  | nil : DenotesAll table [] []
  | cons {e : Expr} {value : Constant} {elts : List Expr} {items : List Constant}
      (he : Denotes table e value) (helts : DenotesAll table elts items) :
      DenotesAll table (e :: elts) (value :: items)

end

theorem DenotesAll.length_eq {elts : List Expr} {items : List Constant} :
    DenotesAll table elts items → elts.length = items.length
  | .nil => rfl
  | .cons _ helts => congrArg Nat.succ helts.length_eq

theorem HasConstant.typeIn? (hbound : HasConstant table e value) :
    e.typeIn? table = some (.ofConstant value) := by
  obtain ⟨var, hvar, hvalue⟩ := hbound
  simp only [Expr.typeIn?, hvar, hvalue.ty]

theorem HasConstant.constantIn? (hbound : HasConstant table e value) :
    e.constantIn? table = some value := by
  obtain ⟨var, hvar, hvalue⟩ := hbound
  simp only [Expr.constantIn?, hvar, Option.bind_eq_bind, Option.bind_some, hvalue.isConstant,
    if_true, hvalue.constantValue]

/-- A visited constant stays bound to its constant while bindings with a type stay as they are. -/
theorem HasConstant.of_kept {later : SymbolTable} (hbound : HasConstant table e value)
    (hkept : ∀ {id var}, table.get? id = some var → var.ty.isSome → later.get? id = some var) :
    HasConstant later e value := by
  obtain ⟨var, hvar, hvalue⟩ := hbound
  refine ⟨var, ?_, hvalue⟩
  unfold Expr.boundVar? at hvar ⊢
  split at hvar
  next => exact hkept hvar (by rw [hvalue.ty, Option.isSome_some])
  next => exact hvar
  next => cases hvar

theorem map_constantIn? {elements : List Expr} {items : List Constant}
    (helements : List.Forall₂ (HasConstant table) elements items) :
    elements.map (Expr.constantIn? table) = items.map some := by
  induction helements with
  | nil => rfl
  | cons hfirst _ ih => rw [List.map_cons, List.map_cons, hfirst.constantIn?, ih]

theorem hasConstant_literal (value : Constant) (span : Span) :
    HasConstant table (literal value span) value :=
  ⟨_, rfl, holdsConstant_constant value⟩

theorem hasConstant_ellipsis (span : Span) :
    HasConstant table
      (.ellipsis { span, binding := some (.value (.constant .ellipsis .ellipsis)) }) .ellipsis :=
  ⟨_, rfl, holdsConstant_constant .ellipsis⟩

/-- A tuple of constants is a constant. -/
theorem hasConstant_typeTuple {elements : List Expr} {items : List Constant}
    (helements : List.Forall₂ (HasConstant table) elements items) :
    HasConstant table (typeTuple span elements .load table) (.tuple items) := by
  have hfolded : elements.mapM (Expr.constantIn? table) = some items := by
    induction helements with
    | nil => rfl
    | cons hfirst _ ih => simp [List.mapM_cons, hfirst.constantIn?, ih]
  refine ⟨tupleVariable table elements .load, rfl, ?_⟩
  simp only [tupleVariable, if_true, hfolded, helements.length_eq]
  exact holdsConstant_constant (.tuple items)

/-! ## Visits -/

theorem run_visitName {name : String} {access : Access} {id : SymbolId}
    (hid : scope.symbols.lookup name = some id)
    (hread : access = .store ∨ (scope.symbols.typeOf? id).isSome) :
    (visitName setting name access span).run scope =
      pure (.name { span, binding := some (.symbol id) } name access, scope) := by
  have hread : ((scope.symbols.get? id).any (fun var => var.isLocal && var.ty.isNone) &&
      decide (access = .load)) = false := by
    rcases hread with rfl | htyped
    · simp
    · obtain ⟨ty, hty⟩ := Option.isSome_iff_exists.mp htyped
      obtain ⟨var, hvar, hty⟩ := Option.bind_eq_some_iff.mp hty
      simp [hvar, hty]
  simp only [visitName, StateT.run_bind, StateT.run_get, pure_bind, hid]
  simp only [hread]
  rfl

/-- A tuple is visited by way of its elements. -/
theorem run_inferExpr_tuple {note : Note} {elts elements : List Expr}
    (hrun : (inferAll setting elts).run scope = pure (elements, scope)) :
    (inferExpr setting (.tuple note elts .load)).run scope =
      pure (typeTuple note.span elements .load scope.symbols, scope) := by
  rw [inferExpr, StateT.run_bind, hrun, pure_bind]
  exact run_apply_ok rfl

mutual

/-- Visiting a constant asks nothing, reports nothing and binds nothing. -/
theorem run_inferExpr_of_denotes {e : Expr} {value : Constant}
    (he : Denotes scope.symbols e value) :
    ∃ visited, (inferExpr setting e).run scope = pure (visited, scope) ∧
      HasConstant scope.symbols visited value := by
  cases he with
  | literal note value =>
      exact ⟨literal value note.span, by simp only [inferExpr, StateT.run_pure],
        hasConstant_literal value note.span⟩
  | ellipsis note =>
      exact ⟨_, by simp only [inferExpr, StateT.run_pure], hasConstant_ellipsis note.span⟩
  | name hid hvar hvalue =>
      have htyped : (scope.symbols.typeOf? _).isSome :=
        Option.isSome_iff_exists.mpr ⟨_, Option.bind_eq_some_iff.mpr ⟨_, hvar, hvalue.ty⟩⟩
      refine ⟨_, by rw [inferExpr]; exact run_visitName hid (.inr htyped), ?_⟩
      exact ⟨_, hvar, hvalue⟩
  | tuple helts =>
      obtain ⟨elements, hrun, helements⟩ := run_inferAll_of_denotes helts
      exact ⟨_, run_inferExpr_tuple hrun, hasConstant_typeTuple helements⟩

theorem run_inferAll_of_denotes {elts : List Expr} {items : List Constant}
    (helts : DenotesAll scope.symbols elts items) :
    ∃ elements, (inferAll setting elts).run scope = pure (elements, scope) ∧
      List.Forall₂ (HasConstant scope.symbols) elements items := by
  cases helts with
  | nil => exact ⟨[], by simp only [inferAll, StateT.run_pure], .nil⟩
  | cons he helts =>
      obtain ⟨first, hfirst, hbound⟩ := run_inferExpr_of_denotes he
      obtain ⟨rest, hrest, hall⟩ := run_inferAll_of_denotes helts
      refine ⟨first :: rest, ?_, .cons hbound hall⟩
      simp only [inferAll, StateT.run_bind, hfirst, hrest, pure_bind, StateT.run_pure]

end

/-! ## Stores -/

/-- A local that has no type yet. -/
def Fresh (table : SymbolTable) (name : String) : Prop :=
  ∃ id, table.lookup name = some id ∧ table.typeOf? id = none

/-- A plain name to store in, as it stands in the source. -/
def place (target : Note × String) : Expr := .name target.1 target.2 .store

/-- A plain name to store in, as it was visited. -/
def visitedPlace (table : SymbolTable) (target : Note × String) : Expr :=
  .name { span := target.1.span, binding := (table.lookup target.2).map .symbol } target.2 .store

theorem visitedPlace_setType (scope : Scope) (id : SymbolId) (ty : Ty) :
    visitedPlace (scope.setType id ty).symbols = visitedPlace scope.symbols := by
  funext target
  simp only [visitedPlace, Scope.setType, SymbolTable.lookup_setType]

/-- Give names the types of the constants that are stored in them. -/
def storeConstants : List (String × Constant) → Scope → Scope
  | [], scope => scope
  | (name, value) :: stores, scope =>
      storeConstants stores <|
        (scope.symbols.lookup name).elim scope fun id => scope.setType id (.ofConstant value)

/-- Stores in different names, none of which has a type. -/
structure FreshStores (scope : Scope) (stores : List (String × Constant)) : Prop where
  nodup : (stores.map Prod.fst).Nodup
  fresh : ∀ store ∈ stores, Fresh scope.symbols store.1

/-- After the first store the names of the others still have no type. -/
theorem FreshStores.of_cons {name : String} {stores : List (String × Constant)}
    (hstores : FreshStores scope ((name, value) :: stores)) :
    ∃ id, scope.symbols.lookup name = some id ∧ scope.symbols.typeOf? id = none ∧
      storeConstants ((name, value) :: stores) scope =
        storeConstants stores (scope.setType id (.ofConstant value)) ∧
      FreshStores (scope.setType id (.ofConstant value)) stores := by
  obtain ⟨hnodup, hfresh⟩ := hstores
  obtain ⟨hhead, hnodup⟩ := List.nodup_cons.mp hnodup
  obtain ⟨⟨id, hid, huntyped⟩, hrest⟩ := List.forall_mem_cons.mp hfresh
  refine ⟨id, hid, huntyped, by rw [storeConstants, hid, Option.elim_some], hnodup, ?_⟩
  intro store hstore
  obtain ⟨other, hother, hnone⟩ := hrest store hstore
  have hne : other ≠ id := by
    rintro rfl
    exact hhead (SymbolTable.lookup_inj hid hother ▸ List.mem_map_of_mem hstore)
  exact ⟨other, by rw [Scope.setType, SymbolTable.lookup_setType, hother],
    (SymbolTable.typeOf?_setType_of_ne _ hne).trans hnone⟩

/-- Names mean the same bindings as before. -/
theorem lookup_storeConstants (stores : List (String × Constant)) (scope : Scope) (name : String) :
    (storeConstants stores scope).symbols.lookup name = scope.symbols.lookup name := by
  induction stores generalizing scope with
  | nil => rfl
  | cons store stores ih =>
      rw [storeConstants, ih]
      cases scope.symbols.lookup store.1 with
      | none => rfl
      | some id => exact SymbolTable.lookup_setType _ _ _ name

/-- A binding that has a type is not one that gets its type now. -/
theorem get?_setType_of_untyped {id other : SymbolId} {var : Variable} {ty : Ty}
    (huntyped : table.typeOf? other = none) (hvar : table.get? id = some var)
    (htyped : var.ty.isSome) : (table.setType other (some ty)).get? id = some var := by
  have hne : id ≠ other := by
    rintro rfl
    rw [SymbolTable.typeOf?, hvar, Option.bind_some] at huntyped
    rw [huntyped] at htyped
    cases htyped
  rw [SymbolTable.get?_setType, if_neg hne, hvar]

theorem get?_storeConstants {stores : List (String × Constant)} {id : SymbolId} {var : Variable}
    (hstores : FreshStores scope stores) (hvar : scope.symbols.get? id = some var)
    (htyped : var.ty.isSome) : (storeConstants stores scope).symbols.get? id = some var := by
  induction stores generalizing scope with
  | nil => exact hvar
  | cons store stores ih =>
      obtain ⟨other, -, huntyped, hstored, hrest⟩ := hstores.of_cons
      rw [hstored]
      exact ih hrest (get?_setType_of_untyped huntyped hvar htyped)

/-- Each name ends up with the type of its constant. -/
theorem typeOfName?_storeConstants {stores : List (String × Constant)} {store : String × Constant}
    (hstores : FreshStores scope stores) (hstore : store ∈ stores) :
    (storeConstants stores scope).symbols.typeOfName? store.1 = some (.ofConstant store.2) := by
  induction stores generalizing scope with
  | nil => cases hstore
  | cons first stores ih =>
      obtain ⟨id, hid, -, hstored, hrest⟩ := hstores.of_cons
      rw [hstored]
      rcases List.mem_cons.mp hstore with rfl | hstore
      · obtain ⟨var, hvar, -⟩ := SymbolTable.lookup_some hid
        have hset : (scope.setType id (.ofConstant store.2)).symbols.get? id =
            some { var with ty := some (.ofConstant store.2) } := by
          simp only [Scope.setType, SymbolTable.get?_setType, if_true, hvar, Option.map_some]
        have htyped := get?_storeConstants hrest hset rfl
        rw [SymbolTable.typeOfName?, lookup_storeConstants, Scope.setType,
          SymbolTable.lookup_setType, hid, Option.bind_some, SymbolTable.typeOf?]
        exact Option.bind_eq_some_iff.mpr ⟨_, htyped, rfl⟩
      · exact ih hrest hstore

/-- A local without a type takes the constant as it is, and its type. -/
theorem run_typeStore_fresh {target : Expr} {id : SymbolId} {name : String}
    (hbinding : target.binding = some (.symbol id)) (hid : scope.symbols.lookup name = some id)
    (huntyped : scope.symbols.typeOf? id = none) (hbound : HasConstant scope.symbols e value) :
    (typeStore target e span).run scope =
      pure (.assign span [target] e, scope.setType id (.ofConstant value)) := by
  obtain ⟨var, hvar, -⟩ := SymbolTable.lookup_some hid
  have hnone : var.ty = none := by
    rwa [SymbolTable.typeOf?, hvar, Option.bind_some] at huntyped
  have hty : typeOf scope.symbols e = .ok (.ofConstant value) := by
    rw [typeOf, hbound.typeIn?]
  have hany : (scope.symbols.get? id).any (fun var => var.ty.isNone) = true := by
    rw [hvar, Option.any_some, hnone, Option.isNone_none]
  rw [typeStore, StateT.run_bind, StateT.run_get, pure_bind, StateT.run_bind, run_apply_ok hty,
    pure_bind, hbinding]
  dsimp only
  rw [if_pos hany, StateT.run_bind, StateT.run_modify, pure_bind, StateT.run_pure]

/-- Storing constants in fresh names, one by one. -/
theorem run_storeAll {targets : List (Note × String)} {elements : List Expr}
    {items : List Constant}
    (hstores : FreshStores scope ((targets.map Prod.snd).zip items))
    (helements : List.Forall₂ (HasConstant scope.symbols) elements items)
    (hlength : targets.length = items.length) :
    (storeAll setting span (targets.map place) elements).run scope =
      pure (List.zipWith
          (fun target e => .assign span [visitedPlace scope.symbols target] e) targets elements,
        storeConstants ((targets.map Prod.snd).zip items) scope) := by
  induction targets generalizing elements items scope with
  | nil =>
      simp only [List.map_nil, storeAll, List.zipWith_nil_left, List.zip_nil_left, storeConstants,
        StateT.run_pure]
  | cons target targets ih =>
      cases helements with
      | nil => cases hlength
      | @cons e value elements items hbound helements =>
          simp only [List.map_cons, List.zip_cons_cons] at hstores ⊢
          obtain ⟨id, hid, huntyped, hstored, hrest⟩ := hstores.of_cons
          have hbounds : List.Forall₂
              (HasConstant (scope.setType id (.ofConstant value)).symbols) elements items :=
            helements.imp fun _ _ hbound =>
              hbound.of_kept (get?_setType_of_untyped huntyped)
          have hrun := ih hrest hbounds (Nat.succ.inj hlength)
          rw [visitedPlace_setType] at hrun
          have hvisited : visitedPlace scope.symbols target =
              .name { span := target.1.span, binding := some (.symbol id) } target.2 .store := by
            rw [visitedPlace, hid, Option.map_some]
          rw [storeAll, StateT.run_bind, place, inferExpr, run_visitName hid (.inl rfl), pure_bind,
            StateT.run_bind, run_typeStore_fresh rfl hid huntyped hbound, pure_bind,
            StateT.run_bind, hrun, pure_bind, StateT.run_pure, hstored, List.zipWith_cons_cons,
            hvisited]

/-! ## Both ways -/

/-- The ways to write places that a value is unpacked into: as a display, or as several targets. -/
inductive UnpacksInto : List Expr → List Expr → Prop where
  | tuple (note : Note) (elts : List Expr) (access : Access) :
      UnpacksInto [.tuple note elts access] elts
  | list (note : Note) (elts : List Expr) (access : Access) :
      UnpacksInto [.list note elts access] elts
  | several {targets : List Expr} (hseveral : targets.length ≠ 1) : UnpacksInto targets targets

theorem UnpacksInto.inferAssign_eq {places targets : List Expr}
    (hplaces : UnpacksInto places targets) (e : Expr) :
    inferAssign setting span places e = unpack setting span targets e := by
  cases hplaces with
  | tuple | list => rfl
  | several hseveral =>
      match places with
      | [] => rfl
      | _ :: _ :: _ => simp only [inferAssign]
      | [_] => exact absurd rfl hseveral

theorem run_unpack {targets elements : List Expr}
    (hsize : unpackedSize e scope.symbols = .ok targets.length)
    (helements : unpackedElements setting e scope.symbols = .ok elements) :
    (unpack setting span targets e).run scope =
      (storeAll setting span targets elements).run scope := by
  have hfits : ¬ targets.length ≠ targets.length := not_not.mpr rfl
  rw [unpack, StateT.run_bind, run_apply_ok hsize, pure_bind, if_neg hfits, StateT.run_bind,
    run_apply_ok helements, pure_bind]

variable {targets : List (Note × String)} {elements elts : List Expr} {items : List Constant}

/-- A display of constants is taken apart into its visited elements. -/
theorem run_unpack_display
    (hstores : FreshStores scope ((targets.map Prod.snd).zip items))
    (helements : List.Forall₂ (HasConstant scope.symbols) elements items)
    (hlength : targets.length = items.length) (displaySpan : Span) :
    (unpack setting span (targets.map place)
        (typeTuple displaySpan elements .load scope.symbols)).run scope =
      pure (List.zipWith
          (fun target e => .assign span [visitedPlace scope.symbols target] e) targets elements,
        storeConstants ((targets.map Prod.snd).zip items) scope) := by
  have hty : typeOf scope.symbols (typeTuple displaySpan elements .load scope.symbols) =
      .ok (.ofConstant (.tuple items)) := by
    rw [typeOf, (hasConstant_typeTuple helements).typeIn?]
  have hsize : unpackedSize (typeTuple displaySpan elements .load scope.symbols) scope.symbols =
      .ok (targets.map place).length := by
    rw [unpackedSize, hty, List.length_map, hlength]
    rfl
  have hunpacked : unpackedElements setting
      (typeTuple displaySpan elements .load scope.symbols) scope.symbols = .ok elements := by
    rw [unpackedElements, hty]
    rfl
  rw [run_unpack hsize hunpacked]
  exact run_storeAll hstores helements hlength

/-- A name that holds a tuple of constants is unpacked into new literals. -/
theorem run_unpack_name {e : Expr} (hname : e.asName.isSome)
    (hty : e.typeIn? scope.symbols = some (.ofConstant (.tuple items)))
    (hstores : FreshStores scope ((targets.map Prod.snd).zip items))
    (hlength : targets.length = items.length) :
    (unpack setting span (targets.map place) e).run scope =
      pure (List.zipWith
          (fun target value => .assign span [visitedPlace scope.symbols target]
            (literal value e.span)) targets items,
        storeConstants ((targets.map Prod.snd).zip items) scope) := by
  have hty : typeOf scope.symbols e = .ok (.ofConstant (.tuple items)) := by
    rw [typeOf, hty]
  have hsize : unpackedSize e scope.symbols = .ok (targets.map place).length := by
    rw [unpackedSize, hty, List.length_map, hlength]
    rfl
  have hliterals : List.Forall₂ (HasConstant scope.symbols)
      (items.map fun item => literal item e.span) items :=
    List.forall₂_map_left_iff.mpr
      (List.forall₂_same.mpr fun item _ => hasConstant_literal item e.span)
  have hunpacked : unpackedElements setting e scope.symbols =
      .ok (items.map fun item => literal item e.span) := by
    obtain ⟨name, hname⟩ := Option.isSome_iff_exists.mp hname
    obtain ⟨note, access, rfl⟩ := Expr.eq_name_of_asName hname
    rw [unpackedElements, hty]
    rfl
  rw [run_unpack hsize hunpacked, run_storeAll hstores hliterals hlength, List.zipWith_map_right]

/-- A tuple of constants that is stored in a fresh name. -/
theorem run_inferStmt_holder {display stored : Note} {holder : String} {id : SymbolId}
    (hrun : (inferAll setting elts).run scope = pure (elements, scope))
    (helements : List.Forall₂ (HasConstant scope.symbols) elements items)
    (hid : scope.symbols.lookup holder = some id) (huntyped : scope.symbols.typeOf? id = none) :
    (inferStmt setting (.assign span [place (stored, holder)] (.tuple display elts .load))).run
        scope =
      pure ([.assign span [visitedPlace scope.symbols (stored, holder)]
          (typeTuple display.span elements .load scope.symbols)],
        scope.setType id (.ofConstant (.tuple items))) := by
  have hstores : FreshStores scope [(holder, .tuple items)] :=
    ⟨List.nodup_singleton _, List.forall_mem_singleton.mpr ⟨id, hid, huntyped⟩⟩
  have hdisplay : List.Forall₂ (HasConstant scope.symbols)
      [typeTuple display.span elements .load scope.symbols] [.tuple items] :=
    .cons (hasConstant_typeTuple helements) .nil
  have hstored := @run_storeAll setting scope span [(stored, holder)] _ [.tuple items] hstores
    hdisplay rfl
  rw [inferStmt, StateT.run_bind, run_inferExpr_tuple hrun, pure_bind]
  refine hstored.trans ?_
  simp only [List.map_cons, List.map_nil, List.zip_cons_cons, List.zip_nil_right, storeConstants,
    hid, Option.elim_some, List.zipWith_cons_cons, List.zipWith_nil_right]

/-- A name that holds a tuple of constants is unpacked into fresh names. -/
theorem run_inferStmt_named {loaded : Note} {holder : String} {id : SymbolId} {places : List Expr}
    (hid : scope.symbols.lookup holder = some id)
    (htyped : scope.symbols.typeOf? id = some (.ofConstant (.tuple items)))
    (hplaces : UnpacksInto places (targets.map place))
    (hstores : FreshStores scope ((targets.map Prod.snd).zip items))
    (hlength : targets.length = items.length) :
    (inferStmt setting (.assign span places (.name loaded holder .load))).run scope =
      pure (List.zipWith
          (fun target value => .assign span [visitedPlace scope.symbols target]
            (literal value loaded.span)) targets items,
        storeConstants ((targets.map Prod.snd).zip items) scope) := by
  have hread : (scope.symbols.typeOf? id).isSome := by rw [htyped, Option.isSome_some]
  obtain ⟨var, hvar, hty⟩ := Option.bind_eq_some_iff.mp htyped
  let visited : Expr :=
    .name { span := loaded.span, binding := some (.symbol id) } holder .load
  have htype : visited.typeIn? scope.symbols = some (.ofConstant (.tuple items)) := by
    have hbound : visited.boundVar? scope.symbols = some var := hvar
    simp only [Expr.typeIn?, hbound, hty]
  rw [inferStmt, StateT.run_bind, inferExpr, run_visitName hid (.inr hread), pure_bind,
    hplaces.inferAssign_eq]
  exact run_unpack_name rfl htype hstores hlength

/-- A tuple of constants that is unpacked where it is written, and one that is unpacked under a name
that it was stored in before: neither is refused, each target gets the same type, and the constant
that is stored in a target in the second case is the one that the element stored in it in the first
case is bound to. -/
theorem unpacked_constants_agree {before : Scope} {places : List Expr} {holder : String}
    {display displayed stored loaded : Note} {first second third : Span}
    (helts : DenotesAll before.symbols elts items) (hlength : elts.length = targets.length)
    (hplaces : UnpacksInto places (targets.map place))
    (hfresh : ∀ name ∈ holder :: targets.map Prod.snd, Fresh before.symbols name)
    (hnodup : (holder :: targets.map Prod.snd).Nodup) :
    let stores := (targets.map Prod.snd).zip items
    let direct := storeConstants stores before
    let named := storeConstants ((holder, .tuple items) :: stores) before
    ∃ elements tuple,
      (inferStmt setting (.assign first places (.tuple display elts .load))).run before =
        pure (List.zipWith
          (fun target e => .assign first [visitedPlace before.symbols target] e) targets elements,
          direct) ∧
      (inferBody setting [.assign second [place (stored, holder)] (.tuple displayed elts .load),
          .assign third places (.name loaded holder .load)]).run before =
        pure (.assign second [visitedPlace before.symbols (stored, holder)] tuple ::
          List.zipWith (fun target value => .assign third [visitedPlace before.symbols target]
            (literal value loaded.span)) targets items, named) ∧
      elements.map (Expr.constantIn? direct.symbols) = items.map some ∧
      ∀ store ∈ stores, direct.symbols.typeOfName? store.1 = some (.ofConstant store.2) ∧
        named.symbols.typeOfName? store.1 = some (.ofConstant store.2) := by
  intro stores direct named
  obtain ⟨elements, hrun, helements⟩ := @run_inferAll_of_denotes setting before _ _ helts
  have hcount : targets.length = items.length := by
    rw [← hlength, helts.length_eq]
  have hnames : stores.map Prod.fst = targets.map Prod.snd :=
    List.map_fst_zip (by rw [List.length_map, hcount])
  have hall : FreshStores before ((holder, .tuple items) :: stores) := by
    refine ⟨by rwa [List.map_cons, hnames], fun store hstore => hfresh _ ?_⟩
    rw [← hnames]
    exact List.mem_map_of_mem hstore
  have hdirect : FreshStores before stores := ⟨(List.nodup_cons.mp hall.nodup).2,
    (List.forall_mem_cons.mp hall.fresh).2⟩
  obtain ⟨id, hid, huntyped, hnamed, hrest⟩ := hall.of_cons
  have hbound : (before.setType id (.ofConstant (.tuple items))).symbols.lookup holder = some id :=
    (SymbolTable.lookup_setType _ _ _ holder).trans hid
  have htyped : (before.setType id (.ofConstant (.tuple items))).symbols.typeOf? id =
      some (.ofConstant (.tuple items)) := by
    obtain ⟨var, hvar, -⟩ := SymbolTable.lookup_some hid
    exact SymbolTable.typeOf?_setType_self hvar _
  refine ⟨elements, typeTuple displayed.span elements .load before.symbols, ?_, ?_, ?_, ?_⟩
  · rw [inferStmt, StateT.run_bind, run_inferExpr_tuple hrun, pure_bind, hplaces.inferAssign_eq]
    exact run_unpack_display hdirect helements hcount display.span
  · have hunpack := @run_inferStmt_named setting _ third _ _ loaded _ _ _ hbound htyped hplaces
      hrest hcount
    rw [visitedPlace_setType] at hunpack
    simp only [inferBody, StateT.run_bind, run_inferStmt_holder hrun helements hid huntyped,
      hunpack, pure_bind, StateT.run_pure, List.append_nil, List.singleton_append, named, stores,
      hnamed]
  · have hkept : List.Forall₂ (HasConstant direct.symbols) elements items :=
      helements.imp fun _ _ hbound => hbound.of_kept (get?_storeConstants hdirect)
    exact map_constantIn? hkept
  · intro store hstore
    exact ⟨typeOfName?_storeConstants hdirect hstore,
      typeOfName?_storeConstants hall (List.mem_cons_of_mem _ hstore)⟩

/-! ## Four constants -/

/-- `(1, "x", None, (..., 2.5))` -/
def fourConstants : List Expr :=
  open Builder in
  [int 1, string "x", load "None", tuple [ellipsis, float ⟨0x4004000000000000⟩]]

/-- `t = (1, "x", None, (..., 2.5)); a, b, c, d = t` -/
def unpackingFour : FunctionDef :=
  open Builder in
  function "f" []
    [assign (store "t") (tuple fourConstants),
      assign (tupleStore [store "a", store "b", store "c", store "d"]) (load "t")]

/-- The constants that `a`, `b`, `c` and `d` stand for. -/
def fourStores : List (String × Constant) :=
  [("a", .int 1), ("b", .str "x"), ("c", .nothing),
    ("d", .tuple [.ellipsis, .float ⟨0x4004000000000000⟩])]

theorem unpacked_constants_agree_four :
    let before := Scope.ofFunction unpackingFour []
    let places := Builder.tupleStore (fourStores.map fun store => Builder.store store.1)
    ∃ direct after stored named later, ∃ elements : List Expr,
      (inferStmt builtinsOnly (Builder.assign places (Builder.tuple fourConstants))).run before =
        pure (direct, after) ∧
      (inferBody builtinsOnly unpackingFour.body).run before = pure (stored :: named, later) ∧
      elements.map (Expr.constantIn? after.symbols) = (fourStores.map Prod.snd).map some ∧
      ∀ store ∈ fourStores,
        after.symbols.typeOfName? store.1 = later.symbols.typeOfName? store.1 := by
  intro before places
  have hnone : Denotes before.symbols (Builder.load "None") .nothing :=
    @Denotes.name _ _ _ ⟨6⟩ _ _ rfl rfl ⟨rfl, rfl, rfl⟩
  have hpair : DenotesAll before.symbols
      [Builder.ellipsis, Builder.float ⟨0x4004000000000000⟩]
      [.ellipsis, .float ⟨0x4004000000000000⟩] :=
    .cons (.ellipsis _) (.cons (.literal _ _) .nil)
  have hfour : DenotesAll before.symbols fourConstants (fourStores.map Prod.snd) :=
    .cons (.literal _ _) (.cons (.literal _ _) (.cons hnone (.cons (.tuple hpair) .nil)))
  have hfresh : ∀ name ∈ ["t", "a", "b", "c", "d"], Fresh before.symbols name := by
    simp only [List.forall_mem_cons, List.not_mem_nil, false_implies, implies_true, and_true]
    exact ⟨⟨_, rfl, rfl⟩, ⟨_, rfl, rfl⟩, ⟨_, rfl, rfl⟩, ⟨_, rfl, rfl⟩, ⟨_, rfl, rfl⟩⟩
  obtain ⟨elements, tuple, hdirect, hnamed, hconstants, htypes⟩ :=
    @unpacked_constants_agree builtinsOnly [({}, "a"), ({}, "b"), ({}, "c"), ({}, "d")] _ _ before
      [places] "t" {} {} {} {} {} {} {} hfour rfl (.tuple {} _ .store) hfresh (by decide)
  exact ⟨_, _, _, _, _, elements, hdirect, hnamed, hconstants,
    fun store hstore => (htypes store hstore).1.trans (htypes store hstore).2.symm⟩

end Inference

end KernelFront
