import KernelFront.Proofs.Counting

/-! # Loops that rebind the name they iterate over

A counted loop looks the name of its array up again for every element. That makes no difference as
long as neither the target nor the body of the loop binds the name. Where they do, the loop still
takes as many steps as the array had elements at first, but stores elements of whatever the name
means by then.
-/

namespace KernelFront

/-- A loop over a named array binds that name neither in its target nor in its body. -/
def Stmt.Steady : Stmt → Prop
  | .forIn _ target iter body _ _ =>
      ∀ name elem layout, iter.asName = some name → iter.ty = some (.array elem layout) →
        name ∉ target.targetNames ∧ name ∉ Stmt.boundNamesBody body
  | _ => True

namespace Meaning

variable {m : Machine} {α β : Type}

/-! ## Computations that leave a name alone -/

/-- A computation that does not change what a name means. -/
def Keeps (name : String) (action : Action m α) : Prop :=
  ∀ state, (runFrom action state).2.names name = state.names name

namespace Keeps

variable {name : String}

theorem pure (value : α) : Keeps name (pure value : Action m α) := fun _ => rfl

theorem throw (halt : Halt) : Keeps name (throw halt : Action m α) := fun _ => rfl

theorem bind {action : Action m α} {next : α → Action m β} (haction : Keeps name action)
    (hnext : ∀ value, Keeps name (next value)) : Keeps name (action >>= next) := by
  intro state
  have hbefore := haction state
  rw [runFrom_bind]
  generalize runFrom action state = result at hbefore
  obtain ⟨halt | value, middle⟩ := result
  · exact hbefore
  · exact (hnext value middle).trans hbefore

theorem reading (effect : State m → Effect m.Memory α) : Keeps name (Meaning.reading effect) :=
  fun _ => rfl

theorem lift (effect : Effect m.Memory α) : Keeps name (Meaning.lift effect) := reading _

theorem valueOf (e : Expr) : Keeps name (Meaning.valueOf e : Action m m.Val) := reading _

theorem mapM (es : List Expr) :
    Keeps name (es.mapM Meaning.valueOf : Action m (List m.Val)) := by
  induction es with
  | nil => exact pure _
  | cons e es ih =>
      rw [List.mapM_cons]
      exact (valueOf e).bind fun _ => ih.bind fun _ => pure _

mutual

theorem store {target : Expr} (hname : name ∉ target.targetNames) (value : m.Val) :
    Keeps name (store target value : Action m Unit) := by
  cases target with
  | name note id access =>
      have hne : name ≠ id := by simpa [Expr.targetNames] using hname
      intro state
      simp [Meaning.store, State.setName, hne]
  | temp note id access =>
      intro state
      simp [Meaning.store, State.setTemp]
  | tuple note elts access =>
      simp only [Expr.targetNames] at hname
      simp only [Meaning.store]
      exact (lift _).bind fun values => storeEach hname values
  | list note elts access =>
      simp only [Expr.targetNames] at hname
      simp only [Meaning.store]
      exact (lift _).bind fun values => storeEach hname values
  | subscript note array selector access =>
      simp only [Meaning.store]
      exact (valueOf array).bind fun _ => (valueOf selector).bind fun _ => lift _
  | «attribute» note node attr access =>
      simp only [Meaning.store]
      exact (valueOf node).bind fun _ => lift _
  | arrayAttribute note attr node access =>
      simp only [Meaning.store]
      exact (valueOf node).bind fun _ => lift _
  | _ =>
      simp only [Meaning.store]
      exact lift _

theorem storeEach {targets : List Expr} (hname : name ∉ Expr.targetNamesAll targets)
    (values : List m.Val) : Keeps name (storeEach targets values : Action m Unit) := by
  cases targets with
  | nil =>
      simp only [Meaning.storeEach]
      exact pure _
  | cons target targets =>
      simp only [Expr.targetNamesAll, List.mem_append, not_or] at hname
      cases values with
      | nil =>
          simp only [Meaning.storeEach]
          exact throw _
      | cons value values =>
          simp only [Meaning.storeEach]
          exact (store hname.1 value).bind fun _ => storeEach hname.2 values

end

theorem forEach {step : β → Action m (Outcome m)} {orelse : Action m (Outcome m)}
    (hstep : ∀ item, Keeps name (step item)) (horelse : Keeps name orelse) (items : List β) :
    Keeps name (Meaning.forEach step orelse items) := by
  induction items with
  | nil => exact horelse
  | cons item items ih =>
      refine (hstep item).bind fun outcome => ?_
      cases outcome with
      | normal => exact ih
      | continues => exact ih
      | breaks => exact pure _
      | returns value => exact pure _

theorem repeatWhile {test : Action m Bool} {body orelse : Action m (Outcome m)}
    (htest : Keeps name test) (hbody : Keeps name body) (horelse : Keeps name orelse) (fuel : Nat) :
    Keeps name (Meaning.repeatWhile test body orelse fuel) := by
  induction fuel with
  | zero => exact throw _
  | succ fuel ih =>
      refine htest.bind fun goes => ?_
      cases goes with
      | false => exact horelse
      | true =>
          refine hbody.bind fun outcome => ?_
          cases outcome with
          | normal => exact ih
          | continues => exact ih
          | breaks => exact pure _
          | returns value => exact pure _

theorem forCounters {step : Int → Action m (Outcome m)} {orelse : Action m (Outcome m)}
    (fuel : Nat) (hstep : ∀ counter, Keeps name (step counter)) (horelse : Keeps name orelse)
    (value : m.Val) : Keeps name (Meaning.forCounters fuel step orelse value) := by
  unfold Meaning.forCounters
  split
  · split
    · exact horelse
    · split
      · exact forEach hstep horelse _
      · exact forEach hstep (throw _) _
  · exact throw _

/-- One step of a loop over an array. -/
theorem element {again : Action m m.Val} {target : Expr} {body : Action m (Outcome m)}
    (hagain : Keeps name again) (htarget : name ∉ target.targetNames) (hbody : Keeps name body)
    (elem : Ty) (position : Nat) :
    Keeps name (again >>= fun array => Meaning.lift (m.item array position) >>= fun element =>
      Meaning.lift (m.fit elem (target.ty.getD .object) element) >>= fun value =>
        Meaning.store target value >>= fun _ => body) :=
  hagain.bind fun _ => (lift _).bind fun _ => (lift _).bind fun _ => (store htarget _).bind fun _ =>
    hbody

theorem forElements {again : Action m m.Val} {target : Expr} {elem : Ty}
    {body orelse : Action m (Outcome m)} (hagain : Keeps name again)
    (htarget : name ∉ target.targetNames) (hbody : Keeps name body) (horelse : Keeps name orelse)
    (array : m.Val) :
    Keeps name (Meaning.forElements again target elem body orelse array) :=
  (lift _).bind fun _ =>
    forEach (fun position => element hagain htarget hbody elem position) horelse _

variable {way : Reading} {fuel : Nat}

mutual

/-- A statement leaves the names alone that it does not bind. -/
theorem exec {stmt : Stmt} (hplain : Plain stmt.nested) (hname : name ∉ stmt.boundNames) :
    Keeps name (exec way fuel stmt : Action m (Outcome m)) := by
  cases stmt with
  | assign span targets value =>
      simp only [Stmt.boundNames] at hname
      simp only [Meaning.exec]
      exact (valueOf value).bind fun _ => (storeEach hname _).bind fun _ => pure _
  | augAssign span target op value =>
      simp only [Stmt.boundNames] at hname
      simp only [Meaning.exec]
      exact (valueOf target).bind fun _ => (valueOf value).bind fun _ => (lift _).bind fun _ =>
        (store hname _).bind fun _ => pure _
  | forIn span target iter body orelse index =>
      simp only [Stmt.nested, plain_cons, plain_append, Stmt.Uncounted] at hplain
      obtain ⟨⟨_, rfl⟩, hbody, horelse⟩ := hplain
      simp only [Stmt.boundNames, List.mem_append, not_or] at hname
      obtain ⟨⟨htarget, hname⟩, hother⟩ := hname
      have hcounters (value : m.Val) : Keeps name (Meaning.forCounters fuel
          (fun position => Meaning.store target (.int position) >>= fun _ =>
            Meaning.execBody way fuel body) (Meaning.execBody way fuel orelse) value) :=
        forCounters fuel (fun _ => (store htarget _).bind fun _ => execBody hbody hname)
          (execBody horelse hother) value
      simp only [Meaning.exec]
      split
      · refine (valueOf iter).bind fun array => ?_
        refine forElements ?_ htarget (execBody hbody hname) (execBody horelse hother) array
        split
        · exact valueOf iter
        · exact pure array
      · exact (valueOf iter).bind hcounters
  | whileLoop span test body orelse =>
      simp only [Stmt.nested, plain_cons, plain_append] at hplain
      simp only [Stmt.boundNames, List.mem_append, not_or] at hname
      simp only [Meaning.exec]
      exact repeatWhile ((valueOf test).bind fun _ => lift _) (execBody hplain.2.1 hname.1)
        (execBody hplain.2.2 hname.2) fuel
  | branch span test body orelse =>
      simp only [Stmt.nested, plain_cons, plain_append] at hplain
      simp only [Stmt.boundNames, List.mem_append, not_or] at hname
      simp only [Meaning.exec]
      refine (valueOf test).bind fun _ => (lift _).bind fun holds => ?_
      cases holds with
      | false => exact execBody hplain.2.2 hname.2
      | true => exact execBody hplain.2.1 hname.1
  | ret span value =>
      cases value with
      | none =>
          simp only [Meaning.exec]
          exact pure _
      | some value =>
          simp only [Meaning.exec]
          exact (valueOf value).bind fun _ => pure _
  | expr span value =>
      simp only [Meaning.exec]
      exact (valueOf value).bind fun _ => pure _
  | print span values dest newline =>
      have hrest (place : Option m.Val) : Keeps name
          (values.mapM Meaning.valueOf >>= fun values =>
            Meaning.lift (m.print place values newline) >>= fun _ => Pure.pure .normal :
              Action m (Outcome m)) :=
        (mapM values).bind fun _ => (lift _).bind fun _ => pure _
      simp only [Meaning.exec]
      cases dest with
      | none => exact hrest none
      | some dest =>
          simp only [Option.mapM_some, map_eq_pure_bind, bind_assoc, pure_bind]
          exact (valueOf dest).bind fun place => hrest (some place)
  | global | pass =>
      simp only [Meaning.exec]
      exact pure _
  | «break» =>
      simp only [Meaning.exec]
      exact pure _
  | «continue» =>
      simp only [Meaning.exec]
      exact pure _

/-- A body leaves the names alone that it does not bind. -/
theorem execBody {body : List Stmt} (hplain : Plain (Stmt.nestedBody body))
    (hname : name ∉ Stmt.boundNamesBody body) :
    Keeps name (execBody way fuel body : Action m (Outcome m)) := by
  cases body with
  | nil =>
      simp only [Meaning.execBody]
      exact pure _
  | cons stmt body =>
      simp only [Stmt.nestedBody, plain_append] at hplain
      simp only [Stmt.boundNamesBody, List.mem_append, not_or] at hname
      simp only [Meaning.execBody]
      refine (exec hplain.1 hname.1).bind fun outcome => ?_
      cases outcome with
      | normal => exact execBody hplain.2 hname.2
      | breaks => exact pure _
      | continues => exact pure _
      | returns value => exact pure _

end

end Keeps

/-! ## Looking a name up again -/

/-- Loops whose steps do the same as long as something holds that the steps preserve. -/
theorem forEach_congr {step other : β → Action m (Outcome m)} {orelse : Action m (Outcome m)}
    (holds : State m → Prop)
    (hsame : ∀ item {state}, holds state → runFrom (step item) state = runFrom (other item) state)
    (hholds : ∀ item {state}, holds state → holds (runFrom (other item) state).2)
    (items : List β) {state : State m} (hstate : holds state) :
    runFrom (forEach step orelse items) state = runFrom (forEach other orelse items) state := by
  induction items generalizing state with
  | nil => rfl
  | cons item items ih =>
      have hafter := hholds item hstate
      simp only [forEach, runFrom_bind, hsame item hstate]
      generalize runFrom (other item) state = result at hafter
      obtain ⟨halt | outcome, middle⟩ := result
      · rfl
      · cases outcome with
        | normal => exact ih hafter
        | continues => exact ih hafter
        | breaks => rfl
        | returns value => rfl

/-- A loop over a name that it does not rebind may keep the array or look it up again. -/
theorem forElements_again {name : String} {note : Note} {access : Access} {target : Expr}
    {elem : Ty} {body orelse : Action m (Outcome m)} (htarget : name ∉ target.targetNames)
    (hbody : Keeps name body) :
    (valueOf (.name note name access) >>= fun array =>
      forElements (valueOf (.name note name access)) target elem body orelse array) =
    (valueOf (.name note name access) >>= fun array =>
      forElements (pure array) target elem body orelse array) := by
  refine effect_ext fun state => ?_
  have hvalue (state : State m) : runFrom (valueOf (.name note name access)) state =
      (state.names name).elim (.error .stuck, state) fun value => (.ok value, state) := by
    simp only [valueOf, runFrom_reading, eval]
    cases state.names name <;> rfl
  simp only [runFrom_bind, hvalue]
  -- Without an array both loops stop at once.
  cases hknown : state.names name with
  | none => rfl
  | some array =>
      simp only [Option.elim_some, forElements, runFrom_bind]
      generalize hlength : runFrom (lift (m.lengthOf array)) state = result
      obtain ⟨halt | length, middle⟩ := result
      · rfl
      · have hmiddle : middle.names name = some array := by
          have hkept : (runFrom (lift (m.lengthOf array)) state).2.names name = state.names name :=
            Keeps.lift _ state
          rw [hlength] at hkept
          exact hkept.trans hknown
        refine forEach_congr (fun state => state.names name = some array) ?_ ?_ _ hmiddle
        · intro position state hstate
          simp only [runFrom_bind, hvalue, hstate, Option.elim_some, runFrom_pure]
        · intro position state hstate
          have hkept := Keeps.element (Keeps.pure array) htarget hbody elem position state
          exact hkept.trans hstate

variable {fuel : Nat}

mutual

theorem exec_again {stmt : Stmt} (hplain : Plain stmt.nested)
    (hsteady : ∀ stmt' ∈ stmt.nested, stmt'.Steady) :
    (exec .again fuel stmt : Action m (Outcome m)) = exec .once fuel stmt := by
  cases stmt with
  | forIn span target iter body orelse index =>
      simp only [Stmt.nested, plain_cons, plain_append, Stmt.Uncounted] at hplain
      obtain ⟨⟨_, rfl⟩, hbody, horelse⟩ := hplain
      simp only [Stmt.nested, List.mem_cons, List.mem_append, forall_eq_or_imp] at hsteady
      obtain ⟨hloop, hsteady⟩ := hsteady
      have hbody' := execBody_again hbody fun stmt hmem => hsteady stmt (.inl hmem)
      have horelse' := execBody_again horelse fun stmt hmem => hsteady stmt (.inr hmem)
      cases hty : iter.ty with
      | none => simp only [exec, hty, hbody', horelse']
      | some ty =>
          cases ty with
          | array elem layout =>
              simp only [exec, hty, hbody', horelse', true_and, reduceCtorEq, false_and, if_false]
              cases iter with
              | name note name access =>
                  obtain ⟨htarget, hname⟩ := hloop name elem layout rfl hty
                  simp only [Expr.asName, Option.isSome_some, if_true]
                  exact forElements_again htarget (Keeps.execBody hbody hname)
              | _ => simp only [Expr.asName, Option.isSome_none, Bool.false_eq_true, if_false]
          | _ => simp only [exec, hty, hbody', horelse']
  | whileLoop span test body orelse =>
      simp only [Stmt.nested, plain_cons, plain_append] at hplain
      simp only [Stmt.nested, List.mem_cons, List.mem_append, forall_eq_or_imp] at hsteady
      simp only [exec, execBody_again hplain.2.1 fun stmt hmem => hsteady.2 stmt (.inl hmem),
        execBody_again hplain.2.2 fun stmt hmem => hsteady.2 stmt (.inr hmem)]
  | branch span test body orelse =>
      simp only [Stmt.nested, plain_cons, plain_append] at hplain
      simp only [Stmt.nested, List.mem_cons, List.mem_append, forall_eq_or_imp] at hsteady
      simp only [exec, execBody_again hplain.2.1 fun stmt hmem => hsteady.2 stmt (.inl hmem),
        execBody_again hplain.2.2 fun stmt hmem => hsteady.2 stmt (.inr hmem)]
  | ret span value => cases value <;> simp only [exec]
  | _ => simp only [exec]

theorem execBody_again {body : List Stmt} (hplain : Plain (Stmt.nestedBody body))
    (hsteady : ∀ stmt ∈ Stmt.nestedBody body, stmt.Steady) :
    (execBody .again fuel body : Action m (Outcome m)) = execBody .once fuel body := by
  cases body with
  | nil => simp only [execBody]
  | cons stmt body =>
      simp only [Stmt.nestedBody, plain_append] at hplain
      simp only [Stmt.nestedBody, List.mem_append] at hsteady
      simp only [execBody, exec_again hplain.1 fun stmt hmem => hsteady stmt (.inl hmem),
        execBody_again hplain.2 fun stmt hmem => hsteady stmt (.inr hmem)]

end

/-- Two runs end in the same way, with the same names and the same memory. -/
structure SameEffect (first second : Except Halt (Outcome m) × State m) : Prop where
  outcome : first.1 = second.1
  names : first.2.names = second.2.names
  memory : first.2.memory = second.2.memory

end Meaning

open Meaning

/-- A function whose loops were counted has the effect that its source has when loops look the names
of their arrays up again for every element. If no loop rebinds the name of the array it goes over,
that is the effect of the source when loops evaluate their iterables once. Well-typed functions are
plain. -/
theorem FunctionDef.counted_sameEffect {table : SymbolTable} {indexType : Ty}
    {func counted : FunctionDef} (hplain : Plain func.statements)
    (hcounted : Pass.Succeeds (func.counted table indexType) counted) {m : Machine}
    (hindex : m.Counts indexType) (fuel : Nat) (way : Reading) (state : State m) :
    SameEffect (runFrom (execBody way fuel counted.body) state)
        (runFrom (execBody .again fuel func.body) state) ∧
      ((∀ stmt ∈ func.statements, stmt.Steady) →
        SameEffect (runFrom (execBody way fuel counted.body) state)
          (runFrom (execBody .once fuel func.body) state)) := by
  simp only [FunctionDef.counted, Pass.succeeds_bind, Pass.succeeds_pure] at hcounted
  obtain ⟨⟨body, temps⟩, hbody, _, _, rfl⟩ := hcounted
  have hmirrors : Mirrors (fun id => temps.length ≤ id.index) state.temps
      (execBody way fuel body) (execBody .again fuel func.body) :=
    (mirrors_lowerBody hindex hplain hbody).2 state.temps
  obtain ⟨houtcome, hafter⟩ := hmirrors ⟨rfl, rfl, fun _ => rfl⟩
  have hsame : SameEffect (runFrom (execBody way fuel body) state)
      (runFrom (execBody .again fuel func.body) state) := ⟨houtcome, hafter.names, hafter.memory⟩
  refine ⟨hsame, fun hsteady => ?_⟩
  rw [← execBody_again hplain hsteady]
  exact hsame

/-! ## A loop that rebinds a name -/

/-- A machine whose arrays are lists of integers. -/
def listMachine : Machine where
  Datum := List Int
  Memory := Unit
  perform _ _ := throw .stuck
  truth _ := throw .stuck
  convert _ _ := throw .stuck
  bound _ := throw .stuck
  element
    | .array _ items, .ofNat position =>
        match items[position]? with
        | some item => pure (.int item)
        | none => throw .stuck
    | _, _ => throw .stuck
  unpack _ _ := throw .stuck
  assign _ _ _ := throw .stuck
  print _ _ _ := throw .stuck

/-- Two arrays under the names that the function reads. -/
def twoArrays : State listMachine where
  names
    | "xs" => some (.array [2] [1, 2])
    | "ys" => some (.array [2] [5, 6])
    | _ => none
  temps _ := none
  memory := ()

/-- The type of the arrays. -/
def integers : Ty := .array .int64 ⟨1, true, true⟩

/-- For each element of `xs`, let a name be `ys`. -/
def storing (name : String) : FunctionDef where
  name := "f"
  args := ["xs", "ys"]
  body := [
    .forIn {} (.name (.annotated {} .int64) "x" .store) (.name (.annotated {} integers) "xs" .load)
      [.assign {} [.name (.annotated {} integers) name .store]
        (.name (.annotated {} integers) "ys" .load)]
      [] none]

theorem plain_storing (name : String) : Plain (storing name).statements := by
  simp [storing, FunctionDef.statements, Stmt.nestedBody, Stmt.nested, Stmt.nodes, Stmt.exprs,
    Expr.nodesAll, Expr.nodes, Expr.isTemp, Stmt.Uncounted]

/-- A loop that binds another name keeps its meaning. -/
theorem counted_sameEffect_storing : ∃ counted,
    Pass.Succeeds ((storing "zs").counted {} .int64) counted ∧
      SameEffect (runFrom (execBody .once 0 counted.body) twoArrays)
        (runFrom (execBody .once 0 (storing "zs").body) twoArrays) := by
  have hsteady : ∀ stmt ∈ (storing "zs").statements, stmt.Steady := by
    simp [storing, FunctionDef.statements, Stmt.nestedBody, Stmt.nested, Stmt.Steady, Expr.asName,
      Expr.targetNames, Expr.targetNamesAll, Stmt.boundNamesBody, Stmt.boundNames]
    rintro _ _ _ rfl _
    decide
  refine ⟨_, .report (.report (.done _)), ?_⟩
  exact (FunctionDef.counted_sameEffect (plain_storing "zs") (.report (.report (.done _)))
    (counts_of_isInt rfl) 0 .once twoArrays).2 hsteady

/-- A loop that binds the name it goes over does not: the counted loop stores an element of `ys`. -/
theorem counted_storing_differs :
    Plain (storing "xs").statements ∧ ∃ counted,
      Pass.Succeeds ((storing "xs").counted {} .int64) counted ∧
        ¬ SameEffect (runFrom (execBody .once 0 counted.body) twoArrays)
          (runFrom (execBody .once 0 (storing "xs").body) twoArrays) := by
  refine ⟨plain_storing "xs", _, .report (.report (.done _)), fun hsame => ?_⟩
  have hx : (some (.int 6) : Option (Value (List Int))) = some (.int 2) :=
    congrFun hsame.names "x"
  cases hx

end KernelFront
