import KernelFront.Inference.Scope
import KernelFront.Proofs.Dialogue

/-! # Scopes grow

Inference adds bindings and gives types to bindings that have none. So what is known about the type
of an expression stays true until the end. The binding of the result is the exception: its type may
widen with every return statement, but nothing widens `void`, and no name refers to that binding.
-/

namespace KernelFront

namespace SymbolTable

theorem get?_insert {table : SymbolTable} {id : SymbolId} {found : Variable} (var : Variable)
    (hfound : table.get? id = some found) : (table.insert var).2.get? id = some found := by
  unfold get? at hfound
  simp only [insert, get?]
  exact (List.getElem?_append_left (List.getElem?_eq_some_iff.mp hfound).1).trans hfound

theorem typeOf?_insert {table : SymbolTable} {id : SymbolId} {ty : Ty} (var : Variable)
    (htyped : table.typeOf? id = some ty) : (table.insert var).2.typeOf? id = some ty := by
  obtain ⟨found, hfound, hty⟩ := Option.bind_eq_some_iff.mp htyped
  exact Option.bind_eq_some_iff.mpr ⟨found, get?_insert var hfound, hty⟩

theorem typeOf?_insert_self (table : SymbolTable) (var : Variable) :
    (table.insert var).2.typeOf? ⟨table.size⟩ = var.ty := by
  simp [insert, typeOf?, get?, size]

theorem get?_setType (table : SymbolTable) (id other : SymbolId) (ty : Option Ty) :
    (table.setType id ty).get? other =
      if other = id then (table.get? id).map fun var => { var with ty } else table.get? other := by
  simp only [setType, get?, List.getElem?_modify]
  by_cases hid : other = id
  · simp [hid]
  · have hindex : ¬ id.index = other.index := fun h => hid (congrArg SymbolId.mk h.symm)
    simp [hid, hindex]

theorem typeOf?_setType_of_ne {table : SymbolTable} {id other : SymbolId} (ty : Option Ty)
    (hne : other ≠ id) : (table.setType id ty).typeOf? other = table.typeOf? other := by
  simp only [typeOf?, get?_setType, if_neg hne]

theorem typeOf?_setType_self {table : SymbolTable} {id : SymbolId} {var : Variable}
    (hvar : table.get? id = some var) (ty : Option Ty) : (table.setType id ty).typeOf? id = ty := by
  simp [typeOf?, get?_setType, hvar]

theorem lookupFrom_some {name : String} {index found : Nat} {vars : List Variable}
    (hfound : lookupFrom name index vars = some found) :
    ∃ var, vars[found - index]? = some var ∧ var.name = some name ∧ index ≤ found := by
  induction vars generalizing index with
  | nil => cases hfound
  | cons var vars ih =>
      simp only [lookupFrom] at hfound
      split at hfound
      · rename_i later hlater
        cases hfound
        obtain ⟨var, hvar, hname, hle⟩ := ih hlater
        refine ⟨var, ?_, hname, by omega⟩
        have hindex : found - index = (found - (index + 1)) + 1 := by omega
        rw [hindex, List.getElem?_cons_succ]
        exact hvar
      · split at hfound
        · rename_i hname
          cases hfound
          exact ⟨var, by simp, hname, Nat.le.refl⟩
        · cases hfound

/-- A name that some binding has means something. -/
theorem lookupFrom_isSome {name : String} {index : Nat} {vars : List Variable} {var : Variable}
    (hvar : var ∈ vars) (hname : var.name = some name) :
    (lookupFrom name index vars).isSome := by
  induction vars generalizing index with
  | nil => cases hvar
  | cons first vars ih =>
      rw [lookupFrom]
      rcases List.mem_cons.mp hvar with rfl | hvar
      · split
        · rfl
        · rw [if_pos hname, Option.isSome_some]
      · have hlater : (lookupFrom name (index + 1) vars).isSome := ih hvar
        obtain ⟨found, hfound⟩ := Option.isSome_iff_exists.mp hlater
        rw [hfound, Option.isSome_some]

/-- A name means a binding of that name. -/
theorem lookup_some {table : SymbolTable} {name : String} {id : SymbolId}
    (hfound : table.lookup name = some id) :
    ∃ var, table.get? id = some var ∧ var.name = some name := by
  obtain ⟨index, hindex, rfl⟩ := Option.map_eq_some_iff.mp hfound
  obtain ⟨var, hvar, hname, _⟩ := lookupFrom_some hindex
  exact ⟨var, hvar, hname⟩

theorem lookupFrom_append (name : String) (index : Nat) (vars : List Variable) (var : Variable) :
    lookupFrom name index (vars ++ [var]) =
      if var.name = some name then some (index + vars.length) else lookupFrom name index vars := by
  induction vars generalizing index with
  | nil => simp [lookupFrom]
  | cons first vars ih =>
      simp only [List.cons_append, lookupFrom, ih, List.length_cons]
      by_cases hname : var.name = some name
      · simp only [hname, if_true, Nat.add_assoc, Nat.add_comm 1]
      · simp only [hname, if_false]

theorem lookup_insert (table : SymbolTable) (var : Variable) (name : String) :
    (table.insert var).2.lookup name =
      if var.name = some name then some ⟨table.size⟩ else table.lookup name := by
  simp only [lookup, insert, lookupFrom_append, Nat.zero_add]
  split <;> rfl

theorem lookupFrom_modify (name : String) (index position : Nat) (ty : Option Ty)
    (vars : List Variable) :
    lookupFrom name index (vars.modify position fun var => { var with ty }) =
      lookupFrom name index vars := by
  induction vars generalizing index position with
  | nil => simp
  | cons var vars ih =>
      cases position with
      | zero => rfl
      | succ position => simp only [List.modify_succ_cons, lookupFrom, ih]

/-- Types do not tell names apart. -/
@[simp] theorem lookup_setType (table : SymbolTable) (id : SymbolId) (ty : Option Ty)
    (name : String) : (table.setType id ty).lookup name = table.lookup name := by
  simp only [lookup, setType, lookupFrom_modify]

end SymbolTable

namespace Inference

open Scope (resultSlot)

/-- The binding of the result is there and has no name. -/
def Scope.Anonymous (scope : Scope) : Prop :=
  ∃ var, scope.symbols.get? resultSlot = some var ∧ var.name = none

/-- What becomes of a scope while inference goes on. -/
structure Scope.Grows (before after : Scope) : Prop where
  typed : ∀ {id ty}, id ≠ resultSlot → before.symbols.typeOf? id = some ty →
    after.symbols.typeOf? id = some ty
  void : before.resultType? = some .void → after.resultType? = some .void
  anonymous : before.Anonymous → after.Anonymous

namespace Scope

theorem Grows.refl (scope : Scope) : scope.Grows scope := ⟨fun _ h => h, id, id⟩

theorem Grows.trans {before middle after : Scope} (hfirst : before.Grows middle)
    (hsecond : middle.Grows after) : before.Grows after :=
  ⟨fun hid hty => hsecond.typed hid (hfirst.typed hid hty), fun h => hsecond.void (hfirst.void h),
    fun h => hsecond.anonymous (hfirst.anonymous h)⟩

/-- A new binding. -/
theorem grows_insert {before after : Scope} (var : Variable)
    (hafter : after.symbols = (before.symbols.insert var).2) : before.Grows after := by
  refine ⟨?_, ?_, ?_⟩
  · intro id ty _ hty
    rw [hafter]
    exact SymbolTable.typeOf?_insert var hty
  · intro hvoid
    rw [resultType?, hafter]
    exact SymbolTable.typeOf?_insert var hvoid
  · rintro ⟨found, hfound, hname⟩
    refine ⟨found, ?_, hname⟩
    rw [hafter]
    exact SymbolTable.get?_insert var hfound

/-- The type of a binding that had none. -/
theorem grows_setType {scope : Scope} {id : SymbolId} {ty : Ty}
    (huntyped : scope.symbols.typeOf? id = none) : scope.Grows (scope.setType id ty) := by
  -- Every type that is known so far is that of another binding.
  have hne {other : SymbolId} {ty' : Ty} (hty : scope.symbols.typeOf? other = some ty') :
      other ≠ id := by
    rintro rfl
    exact nomatch huntyped.symm.trans hty
  refine ⟨?_, ?_, ?_⟩
  · intro other ty' _ hty
    exact (SymbolTable.typeOf?_setType_of_ne _ (hne hty)).trans hty
  · intro hty
    exact (SymbolTable.typeOf?_setType_of_ne _ (hne hty)).trans hty
  · rintro ⟨var, hvar, hname⟩
    simp only [Anonymous, setType, SymbolTable.get?_setType]
    split
    · rename_i hid
      exact ⟨{ var with ty := some ty }, by rw [← hid, hvar]; rfl, hname⟩
    · exact ⟨var, hvar, hname⟩

/-- A wider type of the result, which keeps `void`. -/
theorem grows_setResult {scope : Scope} {ty : Ty}
    (hvoid : scope.resultType? = some .void → ty = .void) :
    scope.Grows (scope.setType resultSlot ty) := by
  refine ⟨?_, ?_, ?_⟩
  · intro id ty' hid hty
    exact (SymbolTable.typeOf?_setType_of_ne _ hid).trans hty
  · intro hbefore
    obtain ⟨var, hvar, _⟩ := Option.bind_eq_some_iff.mp hbefore
    exact (SymbolTable.typeOf?_setType_self hvar _).trans (by rw [hvoid hbefore])
  · rintro ⟨var, hvar, hname⟩
    refine ⟨{ var with ty := some ty }, ?_, hname⟩
    simp only [setType, SymbolTable.get?_setType, if_true, hvar, Option.map_some]

/-- No name refers to the binding of the result. -/
theorem Anonymous.lookup_ne {scope : Scope} (hanonymous : scope.Anonymous) {name : String}
    {id : SymbolId} (hfound : scope.symbols.lookup name = some id) : id ≠ resultSlot := by
  rintro rfl
  obtain ⟨var, hvar, hname⟩ := hanonymous
  obtain ⟨other, hother, hnamed⟩ := SymbolTable.lookup_some hfound
  cases Option.some.inj (hvar.symm.trans hother)
  exact nomatch hname.symm.trans hnamed

theorem anonymous_ofFunction (func : FunctionDef) (args : List Ty) :
    (ofFunction func args).Anonymous := by
  have hfold (vars : List Variable) {scope : Scope} (hscope : scope.Anonymous) :
      (vars.foldl declare scope).Anonymous := by
    induction vars generalizing scope with
    | nil => exact hscope
    | cons var vars ih => exact ih ((grows_insert var rfl).anonymous hscope)
  exact hfold _ ⟨{}, rfl, rfl⟩

end Scope

end Inference

end KernelFront
