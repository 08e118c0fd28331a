import KernelFront.Proofs.Inference.Soundness
import KernelFront.Proofs.Promotion
import Mathlib.Logic.Function.Basic

/-! # Unpacking displays into names

A display that is unpacked into distinct names becomes one assignment for each of its elements. The
elements are bound before the first name is stored, but they are evaluated one after the other: an
element that reads a name stored before it finds the new value there. So the assignments have the
effect of a simultaneous assignment exactly if no element does that.
-/

namespace KernelFront

/-- The names that occur in an expression. -/
def Expr.names (e : Expr) : List String := e.nodes.filterMap Expr.asName

/-- The elements of a tuple or list display. -/
def Expr.elements? : Expr → Option (List Expr)
  | .tuple _ elts _ | .list _ elts _ => some elts
  | _ => none

/-! ## Types of names -/

namespace SymbolTable

/-- The type of the latest binding of a name. -/
def typeOfName? (table : SymbolTable) (name : String) : Option Ty :=
  (table.lookup name).bind table.typeOf?

end SymbolTable

/-! ## Evaluators -/

/-- A way to evaluate expressions. What an expression comes to depends on the values of the names
that occur in it and on nothing else. -/
structure Evaluator where
  Value : Type
  eval : Expr → (String → Value) → Value
  /-- Convert a value to a type. -/
  convert : Ty → Value → Value
  eval_congr : ∀ {e : Expr} {env other : String → Value},
    (∀ name ∈ e.names, env name = other name) → eval e env = eval e other
  eval_coercion : ∀ (note : Note) (e : Expr) (target : Ty) (env : String → Value),
    eval (.coercion note e target) env = convert target (eval e env)

namespace Evaluator

/-- What names stand for. -/
abbrev Env (evaluator : Evaluator) : Type := String → evaluator.Value

variable (evaluator : Evaluator) (table : SymbolTable)

/-- Run assignments to plain names one after the other. -/
def run : List Stmt → evaluator.Env → Option evaluator.Env
  | [], env => some env
  | .assign _ [.name _ name _] value :: stmts, env =>
      run stmts (Function.update env name (evaluator.eval value env))
  | _, _ => none

/-- What is stored in a name: the value of an expression, converted to the type of the name. -/
def stored (name : String) (e : Expr) (env : evaluator.Env) : evaluator.Value :=
  if e.typeIn? table = table.typeOfName? name then evaluator.eval e env
  else (table.typeOfName? name).elim (evaluator.eval e env) fun ty =>
    evaluator.convert ty (evaluator.eval e env)

/-- Store expressions in names one after the other. Each expression is evaluated in what `view`
makes of the names so far. -/
def storeEach (view : evaluator.Env → evaluator.Env) :
    List (String × Expr) → evaluator.Env → evaluator.Env
  | [], env => env
  | (name, e) :: stores, env =>
      storeEach view stores (Function.update env name (evaluator.stored table name e (view env)))

/-- Store expressions in names, all of them evaluated at the start. -/
def simultaneous (stores : List (String × Expr)) (start : evaluator.Env) : evaluator.Env :=
  evaluator.storeEach table (fun _ => start) stores start

/-- Store expressions in names, each of them evaluated when its turn comes. -/
def successive (stores : List (String × Expr)) (start : evaluator.Env) : evaluator.Env :=
  evaluator.storeEach table id stores start

variable {evaluator table}

theorem stored_congr {name : String} {e : Expr} {env other : evaluator.Env}
    (hagree : ∀ name ∈ e.names, env name = other name) :
    evaluator.stored table name e env = evaluator.stored table name e other := by
  simp only [stored, evaluator.eval_congr hagree]

theorem eval_convert {name : String} {e : Expr} {ty : Ty}
    (hty : table.typeOfName? name = some ty) (env : evaluator.Env) :
    evaluator.eval (e.convert table ty) env = evaluator.stored table name e env := by
  unfold Expr.convert stored
  rw [hty]
  split
  · rfl
  · exact evaluator.eval_coercion _ _ _ _

theorem storeEach_of_notMem {view : evaluator.Env → evaluator.Env} {stores : List (String × Expr)}
    {name : String} (hname : name ∉ stores.map Prod.fst) (env : evaluator.Env) :
    evaluator.storeEach table view stores env name = env name := by
  induction stores generalizing env with
  | nil => rfl
  | cons store stores ih =>
      simp only [List.map_cons, List.mem_cons, not_or] at hname
      exact (ih hname.2 _).trans (Function.update_of_ne hname.1 _ _)

end Evaluator

/-- No expression reads a name that is stored before it. -/
def Unread (stores : List (String × Expr)) : Prop :=
  stores.Pairwise fun first second => first.1 ∉ second.2.names

namespace Evaluator

variable {evaluator : Evaluator} {table : SymbolTable}

/-- Without such reads every expression has the value that it had at the start. -/
theorem storeEach_of_agree {stores : List (String × Expr)} {start now : evaluator.Env}
    (hagree : ∀ store ∈ stores, ∀ name ∈ store.2.names, now name = start name)
    (hunread : Unread stores) :
    evaluator.storeEach table id stores now =
      evaluator.storeEach table (fun _ => start) stores now := by
  induction stores generalizing now with
  | nil => rfl
  | cons store stores ih =>
      obtain ⟨hfirst, hrest⟩ := List.forall_mem_cons.mp hagree
      obtain ⟨hhead, htail⟩ := List.pairwise_cons.mp hunread
      simp only [storeEach, id_eq, stored_congr hfirst]
      refine ih (fun later hlater name hname => ?_) htail
      have hne : name ≠ store.1 := by
        rintro rfl
        exact hhead later hlater hname
      rw [Function.update_of_ne hne, hrest later hlater name hname]

theorem successive_eq_simultaneous {stores : List (String × Expr)} (hunread : Unread stores)
    (env : evaluator.Env) :
    evaluator.successive table stores env = evaluator.simultaneous table stores env :=
  storeEach_of_agree (fun _ _ _ _ => rfl) hunread

/-- An evaluator that tells which names were stored: an expression comes to one more than the number
of names in it that are not zero. -/
abbrev counting : Evaluator where
  Value := Nat
  eval e env := 1 + e.names.countP fun name => env name ≠ 0
  convert _ value := value
  eval_congr hagree := congrArg _ <| List.countP_congr fun name hname => by rw [hagree name hname]
  eval_coercion _ _ _ _ := rfl

theorem stored_counting (table : SymbolTable) (name : String) (e : Expr) (env : counting.Env) :
    counting.stored table name e env = counting.eval e env := by
  unfold stored
  split
  · rfl
  · cases table.typeOfName? name <;> rfl

/-- If every expression comes to one in the end, none reads a name that is not zero. -/
theorem unread_of_counting {stores : List (String × Expr)} {env : counting.Env}
    (hnodup : (stores.map Prod.fst).Nodup)
    (hones : ∀ store ∈ stores, counting.storeEach table id stores env store.1 = 1) :
    (∀ store ∈ stores, ∀ name ∈ store.2.names, env name = 0) ∧ Unread stores := by
  induction stores generalizing env with
  | nil => exact ⟨List.forall_mem_nil _, .nil⟩
  | cons store stores ih =>
      obtain ⟨hfresh, hnodup⟩ := List.nodup_cons.mp hnodup
      obtain ⟨hone, hones⟩ := List.forall_mem_cons.mp hones
      obtain ⟨hzeros, hunread⟩ := ih hnodup hones
      -- The name is not stored again, so the expression came to one when it was stored.
      have hcount : counting.eval store.2 env = 1 := by
        rw [← stored_counting table store.1]
        refine Eq.trans ?_ hone
        exact ((storeEach_of_notMem hfresh _).trans (Function.update_self _ _ _)).symm
      have hhead : ∀ later ∈ stores, store.1 ∉ later.2.names := by
        intro later hlater hread
        have hzero := hzeros later hlater store.1 hread
        rw [Function.update_self, id_eq, stored_counting, hcount] at hzero
        exact absurd hzero Nat.one_ne_zero
      refine ⟨List.forall_mem_cons.mpr ⟨?_, fun later hlater name hname => ?_⟩,
        List.pairwise_cons.mpr ⟨hhead, hunread⟩⟩
      · have hnone : (store.2.names.countP fun name => env name ≠ 0) = 0 :=
          Nat.add_left_cancel hcount
        simpa using hnone
      · have hne : name ≠ store.1 := by
          rintro rfl
          exact hhead later hlater hname
        exact (Function.update_of_ne hne _ _).symm.trans (hzeros later hlater name hname)

/-- Where every name is zero, every expression comes to one. -/
theorem storeEach_counting {stores : List (String × Expr)} {name : String} {env : counting.Env}
    (hone : name ∈ stores.map Prod.fst ∨ env name = 1) :
    counting.storeEach table (fun _ _ => 0) stores env name = 1 := by
  induction stores generalizing env with
  | nil => exact hone.resolve_left List.not_mem_nil
  | cons store stores ih =>
      refine ih ?_
      by_cases hname : name = store.1
      · right
        rw [hname, Function.update_self, stored_counting]
        simp [counting]
      · rw [Function.update_of_ne hname]
        simpa [hname] using hone

/-- Storing one after the other is storing at once, whatever the evaluator, exactly if no expression
reads a name that is stored before it. -/
theorem successive_eq_simultaneous_iff {stores : List (String × Expr)}
    (hnodup : (stores.map Prod.fst).Nodup) :
    (∀ (evaluator : Evaluator) (env : evaluator.Env),
      evaluator.successive table stores env = evaluator.simultaneous table stores env) ↔
        Unread stores := by
  constructor
  · intro hsame
    have hones : ∀ store ∈ stores,
        counting.storeEach table id stores (fun _ => 0) store.1 = 1 := by
      intro store hstore
      refine (congrFun (hsame counting fun _ => 0) store.1).trans ?_
      exact storeEach_counting (.inl (List.mem_map_of_mem hstore))
    exact (unread_of_counting hnodup hones).2
  · exact fun hunread evaluator env => successive_eq_simultaneous hunread env

end Evaluator

namespace Inference

open Scope (resultSlot)

/-! ## What inference emits -/

/-- These statements store expressions in names, each converted to the type of its name. -/
inductive Storing (table : SymbolTable) : List (String × Expr) → List Stmt → Prop where
  | nil : Storing table [] []
  | cons {span : Span} {note : Note} {name : String} {access : Access} {e : Expr} {ty : Ty}
      {stores : List (String × Expr)} {stmts : List Stmt} (htype : table.typeOfName? name = some ty)
      (hrest : Storing table stores stmts) :
      Storing table ((name, e) :: stores)
        (.assign span [.name note name access] (e.convert table ty) :: stmts)

/-- Such statements store the expressions in the names, one after the other. -/
theorem Storing.run {table : SymbolTable} {stores : List (String × Expr)} {stmts : List Stmt}
    (hstoring : Storing table stores stmts) (evaluator : Evaluator) (env : evaluator.Env) :
    evaluator.run stmts env = some (evaluator.successive table stores env) := by
  induction hstoring generalizing env with
  | nil => rfl
  | cons htype _ ih =>
      simp only [Evaluator.run, Evaluator.eval_convert htype, ih]
      rfl

theorem Storing.typed {table : SymbolTable} {stores : List (String × Expr)} {stmts : List Stmt}
    (hstoring : Storing table stores stmts) :
    ∀ store ∈ stores, (table.typeOfName? store.1).isSome := by
  induction hstoring with
  | nil => exact List.forall_mem_nil _
  | cons htype _ ih => exact List.forall_mem_cons.mpr ⟨by rw [htype]; rfl, ih⟩

variable {setting : Setting} {span : Span}

/-- A visited name is bound to what the name means, and other names mean what they meant. -/
theorem reaches_visitName {name : String} {access : Access} {before after : Scope} {result : Expr}
    (hreach : Pass.Reaches (visitName setting name access span) before result after) :
    ∃ id, result = .name { span, binding := some (.symbol id) } name access ∧
      after.symbols.lookup name = some id ∧
      ∀ other ≠ name, after.symbols.lookup other = before.symbols.lookup other := by
  simp only [visitName, pure_bind, Pass.reaches_bind, Pass.reaches_get] at hreach
  obtain ⟨_, start, ⟨rfl, rfl⟩, hreach⟩ := hreach
  split at hreach
  · rename_i id hid
    split at hreach
    · simp only [Pass.reaches_bind, not_reaches_refuse, false_and, exists_false] at hreach
    · obtain ⟨rfl, rfl⟩ := Pass.reaches_pure.mp hreach
      exact ⟨id, rfl, hid, fun _ _ => rfl⟩
  · simp only [Pass.reaches_bind, Pass.reaches_pure] at hreach
    obtain ⟨id, _, hfree, rfl, rfl⟩ := hreach
    obtain ⟨ty, rfl, hafter⟩ := reaches_bindFree hfree
    simp only [hafter, SymbolTable.lookup_insert, Variable.globalNamed]
    refine ⟨_, rfl, if_pos trivial, fun other hother => if_neg ?_⟩
    exact fun hname => hother (Option.some.inj hname).symm

/-- A store in a visited place converts the value to the type of the place, which it may have given
to it and with which it has a common type. -/
theorem reaches_typeStore {target value : Expr} {stmt : Stmt} {before after : Scope}
    (htarget : Placed target) (hvalue : Placed value)
    (hreach : Pass.Reaches (typeStore target value span) before stmt after) :
    ∃ ty rhs, settledType? after.symbols target = some ty ∧
      settledType? after.symbols value = some rhs ∧ (ty.promote? rhs).isSome ∧
      stmt = .assign span [target] (value.convert after.symbols ty) ∧
      ∀ name, after.symbols.lookup name = before.symbols.lookup name := by
  cases storeOutcome_of_reaches hreach with
  | @fresh id ty hbinding huntyped hty =>
      obtain ⟨var, hvar⟩ := Option.isSome_iff_exists.mp (Option.isSome_of_any huntyped)
      -- The value keeps its type, so that no conversion is needed.
      have hgrows : before.Grows (before.setType id ty) := grows_untyped huntyped
      have hkept := hgrows.settledType? ((settledType?_eq hvalue).trans hty)
      refine ⟨ty, ty, settledType?_setType htarget hbinding hvar ty, hkept, by simp, ?_,
        fun name => ?_⟩
      · rw [Expr.convert, if_pos (typeIn?_of_settled hkept)]
      · exact SymbolTable.lookup_setType _ _ _ name
  | @settled own ty hown hty hmeets =>
      exact ⟨own, ty, (settledType?_eq htarget).trans hown, (settledType?_eq hvalue).trans hty,
        hmeets, rfl, fun _ => rfl⟩

/-- An expression of the same type is converted in the same way. -/
theorem convert_of_settled {table later : SymbolTable} {e : Expr} {rhs : Ty}
    (hty : settledType? table e = some rhs) (hlater : settledType? later e = some rhs) (ty : Ty) :
    e.convert table ty = e.convert later ty := by
  simp only [Expr.convert, typeIn?_of_settled hty, typeIn?_of_settled hlater]

/-- Storing elements in distinct names. -/
theorem storing_storeAll {targets elements : List Expr} {names : List String} {stmts : List Stmt}
    {before after : Scope} (hanonymous : before.Anonymous)
    (hnames : targets.map Expr.asName = names.map some) (hnodup : names.Nodup)
    (hlength : elements.length = targets.length) (hplaced : ∀ e ∈ elements, Placed e)
    (hreach : Pass.Reaches (storeAll setting span targets elements) before stmts after) :
    Storing after.symbols (names.zip elements) stmts ∧
      ∀ name ∉ names, after.symbols.lookup name = before.symbols.lookup name := by
  induction targets generalizing elements names stmts before with
  | nil =>
      cases names with
      | cons => cases hnames
      | nil =>
          simp only [storeAll, Pass.reaches_pure] at hreach
          obtain ⟨rfl, rfl⟩ := hreach
          exact ⟨.nil, fun _ _ => rfl⟩
  | cons target targets ih =>
      cases names with
      | nil => cases hnames
      | cons name names =>
          cases elements with
          | nil => cases hlength
          | cons element elements =>
              simp only [List.map_cons, List.cons.injEq] at hnames
              obtain ⟨hname, hnames⟩ := hnames
              obtain ⟨hfresh, hnodup⟩ := List.nodup_cons.mp hnodup
              obtain ⟨helement, helements⟩ := List.forall_mem_cons.mp hplaced
              simp only [storeAll, Pass.reaches_bind, Pass.reaches_pure] at hreach
              obtain ⟨target', first, htarget, stmt, second, hstmt, stmts, _, hstmts, rfl, rfl⟩ :=
                hreach
              have hvisited := visited_inferExpr htarget
              have hstored := @visited_typeStore setting.options.indexType _ _ _ _ _ _ hstmt
              have hfirst := hvisited.grows.anonymous hanonymous
              have hsecond := hstored.grows.anonymous hfirst
              have hplace := (hvisited.holds hanonymous).placed
              obtain ⟨hstoring, hkept⟩ := ih hsecond hnames hnodup (Nat.succ.inj hlength) helements
                hstmts
              have hgrows := (visited_storeAll hstmts).grows
              obtain ⟨note, access, rfl⟩ := Expr.eq_name_of_asName hname
              simp only [inferExpr] at htarget
              obtain ⟨id, rfl, hid, hothers⟩ := reaches_visitName htarget
              obtain ⟨ty, rhs, hty, hrhs, -, rfl, hlookup⟩ :=
                reaches_typeStore hplace helement hstmt
              -- What is known after the first store is still true at the end.
              rw [convert_of_settled hrhs (hgrows.settledType? hrhs)]
              refine ⟨.cons ?_ hstoring, fun other hother => ?_⟩
              · have hty := hgrows.settledType? hty
                rw [settledType?_symbol _ rfl] at hty
                split at hty
                · cases hty
                · rw [SymbolTable.typeOfName?, hkept name hfresh, hlookup, hid]
                  exact hty
              · simp only [List.mem_cons, not_or] at hother
                rw [hkept other hother.2, hlookup, hothers other hother.1]

theorem tupleVariable_ty (table : SymbolTable) (elts : List Expr) (access : Access) :
    ∃ items, (tupleVariable table elts access).ty = some (.tuple elts.length items) := by
  simp only [tupleVariable]
  split <;> exact ⟨_, rfl⟩

/-- A visited display is taken apart into its visited elements. -/
theorem reaches_display {value result : Expr} {elts : List Expr} {before after : Scope}
    (hvalue : value.elements? = some elts)
    (hreach : Pass.Reaches (inferExpr setting value) before result after) :
    ∃ elements, Pass.Reaches (inferAll setting elts) before elements after ∧
      unpackedElements setting result after.symbols = .ok elements := by
  cases value <;> simp only [Expr.elements?, reduceCtorEq, Option.some.injEq] at hvalue <;>
    subst hvalue
  · simp only [inferExpr, Pass.reaches_bind, reaches_apply, Except.ok.injEq] at hreach
    obtain ⟨elements, _, helements, rfl, rfl⟩ := hreach
    obtain ⟨items, hitems⟩ := tupleVariable_ty after.symbols elements ‹Access›
    refine ⟨elements, helements, ?_⟩
    simp only [unpackedElements, bind_eq_ok, typeOf_eq_ok]
    exact ⟨_, hitems, rfl⟩
  · simp only [inferExpr, Pass.reaches_bind, Pass.reaches_pure] at hreach
    obtain ⟨elements, _, helements, rfl, rfl⟩ := hreach
    exact ⟨elements, helements, rfl⟩

/-- Unpacking a display into a display stores the elements of one in those of the other. -/
theorem reaches_unpack {targets : List Expr} {value : Expr} {elements : List Expr}
    {stmts : List Stmt} {before after : Scope}
    (helements : unpackedElements setting value before.symbols = .ok elements)
    (hreach : Pass.Reaches (unpack setting span targets value) before stmts after) :
    Pass.Reaches (storeAll setting span targets elements) before stmts after := by
  obtain ⟨_, -, hunpacked, hstores⟩ := exists_unpack hreach
  cases helements.symm.trans hunpacked
  exact hstores

theorem length_inferAll {es results : List Expr} {before after : Scope}
    (hreach : Pass.Reaches (inferAll setting es) before results after) :
    results.length = es.length := by
  induction es generalizing results before with
  | nil =>
      simp only [inferAll, Pass.reaches_pure] at hreach
      rw [hreach.1]
  | cons e es ih =>
      simp only [inferAll, Pass.reaches_bind, Pass.reaches_pure] at hreach
      obtain ⟨_, _, _, _, _, hes, rfl, rfl⟩ := hreach
      simp only [List.length_cons, ih hes]

variable {target value : Expr} {targets elts : List Expr} {names : List String}
  {stmts : List Stmt} {before after : Scope}

/-- What inference makes of the unpacking of a display into distinct names: it binds the elements,
and then come assignments of one element to one name each. -/
theorem storing_inferStmt (hanonymous : before.Anonymous)
    (htarget : target.elements? = some targets) (hvalue : value.elements? = some elts)
    (hlength : elts.length = targets.length) (hnames : targets.map Expr.asName = names.map some)
    (hnodup : names.Nodup)
    (hreach : Pass.Reaches (inferStmt setting (.assign span [target] value)) before stmts after) :
    ∃ elements middle, Pass.Reaches (inferAll setting elts) before elements middle ∧
      elements.length = names.length ∧ Storing after.symbols (names.zip elements) stmts := by
  simp only [inferStmt, Pass.reaches_bind] at hreach
  obtain ⟨value', middle, hvisit, hreach⟩ := hreach
  obtain ⟨elements, helements, hunpacked⟩ := reaches_display hvalue hvisit
  have hstore : Pass.Reaches (storeAll setting span targets elements) middle stmts after := by
    cases target <;> simp only [Expr.elements?, reduceCtorEq, Option.some.injEq] at htarget <;>
      exact htarget ▸ reaches_unpack hunpacked hreach
  have hcount : elements.length = targets.length := (length_inferAll helements).trans hlength
  have hvisited := visited_inferAll helements
  have hsettled := settled_nodesAll.mp (hvisited.holds hanonymous)
  have hstoring := (storing_storeAll (hvisited.grows.anonymous hanonymous) hnames hnodup hcount
    (fun e he => (hsettled e he).placed) hstore).1
  refine ⟨elements, middle, helements, ?_, hstoring⟩
  simpa only [List.length_map, hcount] using congrArg List.length hnames

/-- The assignments that unpack a display into distinct names store its elements one after the
other, each evaluated when its turn comes and converted to the type of its name. That is a
simultaneous assignment, whatever the evaluator, exactly if no element reads a name that is stored
before it. Every scope of inference has an anonymous result. -/
theorem unpacked_simultaneous_iff (hanonymous : before.Anonymous)
    (htarget : target.elements? = some targets) (hvalue : value.elements? = some elts)
    (hlength : elts.length = targets.length) (hnames : targets.map Expr.asName = names.map some)
    (hnodup : names.Nodup)
    (hreach : Pass.Reaches (inferStmt setting (.assign span [target] value)) before stmts after) :
    ∃ elements middle, Pass.Reaches (inferAll setting elts) before elements middle ∧
      (∀ name ∈ names, (after.symbols.typeOfName? name).isSome) ∧
      (∀ (evaluator : Evaluator) (env : evaluator.Env), evaluator.run stmts env =
        some (evaluator.successive after.symbols (names.zip elements) env)) ∧
      ((∀ (evaluator : Evaluator) (env : evaluator.Env), evaluator.run stmts env =
        some (evaluator.simultaneous after.symbols (names.zip elements) env)) ↔
          Unread (names.zip elements)) := by
  obtain ⟨elements, middle, helements, hcount, hstoring⟩ :=
    storing_inferStmt hanonymous htarget hvalue hlength hnames hnodup hreach
  have hfirst : (names.zip elements).map Prod.fst = names :=
    List.map_fst_zip (Nat.le_of_eq hcount.symm)
  refine ⟨elements, middle, helements, fun name hname => ?_, hstoring.run, ?_⟩
  · rw [← hfirst] at hname
    obtain ⟨store, hstore, rfl⟩ := List.mem_map.mp hname
    exact hstoring.typed store hstore
  · simp only [hstoring.run, Option.some.injEq]
    exact Evaluator.successive_eq_simultaneous_iff (by rwa [hfirst])

end Inference

/-! ## Two names -/

/-- Store in `a` and in `b` at the same time. -/
def pairing (first second : Expr) : Stmt :=
  open Builder in
  assign (tupleStore [store "a", store "b"]) (tuple [first, second])

/-- A scope in which `a` and `b` are integers. -/
def twoIntegers : Inference.Scope :=
  .ofFunction (Builder.function "f" ["a", "b"] []) [.int64, .int64]

open Inference

/-- `a, b = b, 1`: a constant reads no name, so it may be stored last. -/
theorem unpacked_simultaneous_pairing : ∃ stmts after elements,
    Pass.Reaches (inferStmt builtinsOnly (pairing (Builder.load "b") (Builder.int 1))) twoIntegers
        stmts after ∧
      ∀ (evaluator : Evaluator) (env : evaluator.Env), evaluator.run stmts env =
        some (evaluator.simultaneous after.symbols (["a", "b"].zip elements) env) := by
  have hreach : ∃ stmts after, Pass.Reaches
      (inferStmt builtinsOnly (pairing (Builder.load "b") (Builder.int 1))) twoIntegers stmts
        after := ⟨_, _, .done _⟩
  obtain ⟨stmts, after, hreach⟩ := hreach
  have htarget : (Builder.tupleStore [Builder.store "a", Builder.store "b"]).elements? =
      some [Builder.store "a", Builder.store "b"] := rfl
  have hvalue : (Builder.tuple [Builder.load "b", Builder.int 1]).elements? =
      some [Builder.load "b", Builder.int 1] := rfl
  have hnames : [Builder.store "a", Builder.store "b"].map Expr.asName = ["a", "b"].map some := rfl
  obtain ⟨elements, middle, helements, _, _, hiff⟩ := unpacked_simultaneous_iff
    (Scope.anonymous_ofFunction _ _) htarget hvalue rfl hnames (by decide) hreach
  refine ⟨stmts, after, elements, hreach, hiff.mpr ?_⟩
  cases helements
  simp [Unread, Expr.names, Expr.nodes, Expr.asName, literal, constantOf]

/-- The value of a name or of an integer; nothing else has a value here. -/
def lookUp : Expr → (String → Int) → Int
  | .name _ id _, env => env id
  | .const _ (.int value), _ => value
  | .coercion _ e _, env => lookUp e env
  | _, _ => 0

/-- The evaluator of names and integers. -/
def naming : Evaluator where
  Value := Int
  eval := lookUp
  convert _ value := value
  eval_congr {e env other} hagree := by
    fun_induction lookUp e env with
    | case1 note id access env => exact hagree id (by simp [Expr.names, Expr.nodes, Expr.asName])
    | case2 note value env => rfl
    | case3 note e target env ih => exact ih hagree
    | case4 e env hname hint hcoercion => exact (lookUp.eq_4 _ _ hname hint hcoercion).symm
  eval_coercion _ _ _ _ := rfl

/-- `a, b = 1, a`: the old value of `a` is lost before it is stored in `b`. -/
theorem unpacked_reading_differs : ∃ stmts after elements middle,
    Pass.Reaches (inferStmt builtinsOnly (pairing (Builder.int 1) (Builder.load "a"))) twoIntegers
        stmts after ∧
      Pass.Reaches (inferAll builtinsOnly [Builder.int 1, Builder.load "a"]) twoIntegers elements
        middle ∧
      let env : naming.Env := fun name => if name = "a" then (3 : Int) else (4 : Int)
      naming.run stmts env ≠
        some (naming.simultaneous after.symbols (["a", "b"].zip elements) env) := by
  refine ⟨_, _, _, _, .done _, .done _, fun hsame => ?_⟩
  have hb : (1 : Int) = 3 := congrFun (Option.some.inj hsame) "b"
  exact absurd hb (by decide)

end KernelFront
