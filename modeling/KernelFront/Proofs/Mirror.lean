import KernelFront.Proofs.Meaning

/-! # Computations that differ in temporaries only

A function and what a pass makes of it run side by side, in states that agree on the names and on
the memory. The temporaries belong to the second one alone, and some of them are pinned to a value
that it relies on.
-/

namespace KernelFront

/-- Whether an expression is a temporary. -/
def Expr.isTemp : Expr → Bool
  | .temp _ _ _ => true
  | _ => false

/-- No temporary occurs among some nodes. -/
def Untouched (nodes : List Expr) : Prop := ∀ node ∈ nodes, node.isTemp = false

@[simp] theorem untouched_nil : Untouched [] := List.forall_mem_nil _

@[simp] theorem untouched_cons {node : Expr} {nodes : List Expr} :
    Untouched (node :: nodes) ↔ node.isTemp = false ∧ Untouched nodes :=
  List.forall_mem_cons

@[simp] theorem untouched_append {first second : List Expr} :
    Untouched (first ++ second) ↔ Untouched first ∧ Untouched second :=
  List.forall_mem_append

namespace Meaning

variable {σ α β : Type}

/-! ## Running computations -/

@[simp] theorem runFrom_pure (value : α) (state : σ) :
    runFrom (pure value : Effect σ α) state = (.ok value, state) := rfl

theorem runFrom_bind (effect : Effect σ α) (next : α → Effect σ β) (state : σ) :
    runFrom (effect >>= next) state =
      match runFrom effect state with
      | (.ok value, state) => runFrom (next value) state
      | (.error halt, state) => (.error halt, state) := by
  simp only [runFrom, ExceptT.run_bind, StateT.run_bind]
  generalize StateT.run (ExceptT.run effect) state = result
  obtain ⟨_ | _, _⟩ := result <;> rfl

@[simp] theorem runFrom_modify (f : σ → σ) (state : σ) :
    runFrom (modify f : Effect σ Unit) state = (.ok (), f state) := rfl

theorem effect_ext {first second : Effect σ α}
    (hrun : ∀ state, runFrom first state = runFrom second state) : first = second :=
  funext hrun

variable {m : Machine}

@[simp] theorem runFrom_reading (effect : State m → Effect m.Memory α) (state : State m) :
    runFrom (reading effect) state =
      ((runFrom (effect state) state.memory).1,
        { state with memory := (runFrom (effect state) state.memory).2 }) := rfl

/-- Reading leaves the names and the temporaries as they are for what is read next. -/
theorem reading_bind (effect : State m → Effect m.Memory α)
    (next : α → State m → Effect m.Memory β)
    (hnext : ∀ value state memory, next value { state with memory } = next value state) :
    reading (fun state => effect state >>= fun value => next value state) =
      reading effect >>= fun value => reading (next value) := by
  refine effect_ext fun state => ?_
  simp only [runFrom_bind, runFrom_reading]
  generalize hresult : runFrom (effect state) state.memory = result
  obtain ⟨halt | value, memory⟩ := result
  · rfl
  · simp only [hnext]

/-! ## Reading without temporaries -/

section

variable {names : String → Option m.Val} {temps others : TempId → Option m.Val}

mutual

theorem eval_congr {e : Expr} (huntouched : Untouched e.nodes) :
    eval m names temps e = eval m names others e := by
  cases e with
  | name | ellipsis => simp only [eval]
  | const note value => cases value <;> simp only [eval]
  | temp => simp [Expr.nodes, Expr.isTemp] at huntouched
  | binOp note left op right =>
      simp only [Expr.nodes, untouched_cons, untouched_append] at huntouched
      obtain ⟨_, hleft, hright⟩ := huntouched
      simp only [eval, eval_congr hleft, eval_congr hright]
  | boolOp note op values =>
      simp only [Expr.nodes, untouched_cons] at huntouched
      simp only [eval, evalUntil_congr op huntouched.2]
  | unaryOp note op operand =>
      simp only [Expr.nodes, untouched_cons] at huntouched
      simp only [eval, eval_congr huntouched.2]
  | compare note left ops comparators =>
      simp only [Expr.nodes, untouched_cons, untouched_append] at huntouched
      obtain ⟨_, hleft, hcomparators⟩ := huntouched
      simp only [eval, eval_congr hleft, evalAll_congr hcomparators]
  | call note func args keywords =>
      simp only [Expr.nodes, untouched_cons, untouched_append] at huntouched
      obtain ⟨_, ⟨hfunc, hargs⟩, hkeywords⟩ := huntouched
      simp only [eval, eval_congr hfunc, evalAll_congr hargs, evalKeywords_congr hkeywords]
  | «attribute» note value attr access =>
      simp only [Expr.nodes, untouched_cons] at huntouched
      simp only [eval, eval_congr huntouched.2]
  | subscript note value selector access =>
      simp only [Expr.nodes, untouched_cons, untouched_append] at huntouched
      obtain ⟨_, hvalue, hselector⟩ := huntouched
      simp only [eval, eval_congr hvalue, eval_congr hselector]
  | index note value =>
      simp only [Expr.nodes, untouched_cons] at huntouched
      simp only [eval, eval_congr huntouched.2]
  | slice note lower upper step =>
      simp only [Expr.nodes, untouched_cons, untouched_append] at huntouched
      obtain ⟨_, ⟨hlower, hupper⟩, hstep⟩ := huntouched
      simp only [eval, evalPart_congr hlower, evalPart_congr hupper, evalPart_congr hstep]
  | extSlice note dims =>
      simp only [Expr.nodes, untouched_cons] at huntouched
      simp only [eval, evalAll_congr huntouched.2]
  | tuple note elts access =>
      simp only [Expr.nodes, untouched_cons] at huntouched
      simp only [eval, evalAll_congr huntouched.2]
  | list note elts access =>
      simp only [Expr.nodes, untouched_cons] at huntouched
      simp only [eval, evalAll_congr huntouched.2]
  | dict note keys values =>
      simp only [Expr.nodes, untouched_cons, untouched_append] at huntouched
      obtain ⟨_, hkeys, hvalues⟩ := huntouched
      simp only [eval, evalAll_congr hkeys, evalAll_congr hvalues]
  | coercion note node target =>
      simp only [Expr.nodes, untouched_cons] at huntouched
      simp only [eval, eval_congr huntouched.2]
  | deferredCoercion note node slot =>
      simp only [Expr.nodes, untouched_cons] at huntouched
      simp only [eval, eval_congr huntouched.2]
  | range note start stop step =>
      simp only [Expr.nodes, untouched_cons, untouched_append] at huntouched
      obtain ⟨_, ⟨hstart, hstop⟩, hstep⟩ := huntouched
      simp only [eval, eval_congr hstart, eval_congr hstop, eval_congr hstep]
  | nativeCall note symbol signature args =>
      simp only [Expr.nodes, untouched_cons] at huntouched
      simp only [eval, evalAll_congr huntouched.2]
  | objectCall note func args keywords =>
      simp only [Expr.nodes, untouched_cons, untouched_append] at huntouched
      obtain ⟨_, ⟨hfunc, hargs⟩, hkeywords⟩ := huntouched
      simp only [eval, eval_congr hfunc, evalAll_congr hargs, evalKeywords_congr hkeywords]
  | arrayAttribute note attr array access =>
      simp only [Expr.nodes, untouched_cons] at huntouched
      cases attr <;> simp only [eval, eval_congr huntouched.2]
  | dataPointer note array =>
      simp only [Expr.nodes, untouched_cons] at huntouched
      simp only [eval, eval_congr huntouched.2]
  | objectTemp note node id =>
      simp only [Expr.nodes, untouched_cons] at huntouched
      simp only [eval, eval_congr huntouched.2]

theorem evalAll_congr {es : List Expr} (huntouched : Untouched (Expr.nodesAll es)) :
    evalAll m names temps es = evalAll m names others es := by
  cases es with
  | nil => simp only [evalAll]
  | cons e es =>
      simp only [Expr.nodesAll, untouched_append] at huntouched
      simp only [evalAll, eval_congr huntouched.1, evalAll_congr huntouched.2]

theorem evalKeywords_congr {keywords : List (String × Expr)}
    (huntouched : Untouched (Expr.nodesKeywords keywords)) :
    evalKeywords m names temps keywords = evalKeywords m names others keywords := by
  cases keywords with
  | nil => simp only [evalKeywords]
  | cons keyword keywords =>
      obtain ⟨arg, e⟩ := keyword
      simp only [Expr.nodesKeywords, untouched_append] at huntouched
      simp only [evalKeywords, eval_congr huntouched.1, evalKeywords_congr huntouched.2]

theorem evalPart_congr {part : Option Expr} (huntouched : Untouched (Expr.nodesPart part)) :
    evalPart m names temps part = evalPart m names others part := by
  cases part with
  | none => simp only [evalPart]
  | some e =>
      simp only [Expr.nodesPart] at huntouched
      simp only [evalPart, eval_congr huntouched]

theorem evalUntil_congr (op : BoolOp) {es : List Expr}
    (huntouched : Untouched (Expr.nodesAll es)) :
    evalUntil m names temps op es = evalUntil m names others op es := by
  cases es with
  | nil => simp only [evalUntil]
  | cons e es =>
      simp only [Expr.nodesAll, untouched_append] at huntouched
      cases es with
      | nil => simp only [evalUntil, eval_congr huntouched.1]
      | cons next es =>
          simp only [evalUntil, eval_congr huntouched.1, evalUntil_congr op huntouched.2]

end

end

/-! ## Running side by side -/

/-- Two states with the same names and the same memory, where some temporaries of the first one hold
given values. -/
structure Like (pinned : TempId → Prop) (held : TempId → Option m.Val) (first second : State m) :
    Prop where
  names : first.names = second.names
  memory : first.memory = second.memory
  temps : ∀ {id}, pinned id → first.temps id = held id

/-- From states that are alike two computations lead to one end and to states that are alike. -/
def Mirrors (pinned : TempId → Prop) (held : TempId → Option m.Val) (first second : Action m α) :
    Prop :=
  ∀ ⦃state other⦄, Like pinned held state other →
    (runFrom first state).1 = (runFrom second other).1 ∧
      Like pinned held (runFrom first state).2 (runFrom second other).2

variable {pinned : TempId → Prop} {held : TempId → Option m.Val}

namespace Mirrors

theorem pure (value : α) : Mirrors pinned held (pure value : Action m α) (pure value) :=
  fun _ _ hlike => ⟨rfl, hlike⟩

theorem throw (halt : Halt) : Mirrors pinned held (throw halt : Action m α) (throw halt) :=
  fun _ _ hlike => ⟨rfl, hlike⟩

theorem bind {first second : Action m α} {next following : α → Action m β}
    (hfirst : Mirrors pinned held first second)
    (hnext : ∀ value, Mirrors pinned held (next value) (following value)) :
    Mirrors pinned held (first >>= next) (second >>= following) := by
  intro state other hlike
  obtain ⟨hresult, hafter⟩ := hfirst hlike
  rw [runFrom_bind, runFrom_bind]
  generalize runFrom first state = left at hresult hafter
  generalize runFrom second other = right at hresult hafter
  obtain ⟨result, middle⟩ := left
  obtain ⟨_, between⟩ := right
  cases hresult
  cases result with
  | error halt => exact ⟨rfl, hafter⟩
  | ok value => exact hnext value hafter

/-- Fewer temporaries may be pinned, if it does not matter what they hold. -/
theorem restrict {fewer : TempId → Prop} {first second : Action m α}
    (hmirrors : ∀ held, Mirrors pinned held first second) (hfewer : ∀ {id}, fewer id → pinned id) :
    Mirrors fewer held first second := by
  intro state other hlike
  obtain ⟨hresult, hafter⟩ := hmirrors state.temps ⟨hlike.names, hlike.memory, fun _ => rfl⟩
  exact ⟨hresult, hafter.names, hafter.memory,
    fun hid => (hafter.temps (hfewer hid)).trans (hlike.temps hid)⟩

/-- A temporary that is set first may be pinned to its value for the rest. -/
theorem pin {id : TempId} {value : m.Val} {note : Note} {access : Access}
    {first second : Action m α} (hfree : ¬ pinned id)
    (hmirrors : Mirrors (fun other => pinned other ∨ other = id)
      (fun other => if other = id then some value else held other) first second) :
    Mirrors pinned held (store (.temp note id access) value >>= fun _ => first) second := by
  intro state other hlike
  have hstore : runFrom (store (.temp note id access) value) state =
      (.ok (), state.setTemp id value) := by
    simp only [store, runFrom_modify]
  simp only [runFrom_bind, hstore]
  have hpinned : Like (fun other => pinned other ∨ other = id)
      (fun other => if other = id then some value else held other) (state.setTemp id value)
      other := by
    refine ⟨hlike.names, hlike.memory, ?_⟩
    intro which hwhich
    by_cases hid : which = id
    · simp [State.setTemp, hid]
    · simp [State.setTemp, hid, hlike.temps (hwhich.resolve_right hid)]
  obtain ⟨hresult, hafter⟩ := hmirrors hpinned
  refine ⟨hresult, hafter.names, hafter.memory, ?_⟩
  intro which hwhich
  have hid : which ≠ id := by
    rintro rfl
    exact hfree hwhich
  rw [hafter.temps (.inl hwhich), if_neg hid]

theorem reading {effect other : State m → Effect m.Memory α}
    (heffect : ∀ {state state'}, Like pinned held state state' → effect state = other state') :
    Mirrors pinned held (Meaning.reading effect) (Meaning.reading other) := by
  intro state state' hlike
  simp only [runFrom_reading, heffect hlike, hlike.memory]
  exact ⟨trivial, hlike.names, rfl, hlike.temps⟩

theorem lift (effect : Effect m.Memory α) :
    Mirrors pinned held (Meaning.lift effect) (Meaning.lift effect) :=
  reading fun _ => rfl

theorem valueOf {e : Expr} (huntouched : Untouched e.nodes) :
    Mirrors pinned held (valueOf e : Action m m.Val) (valueOf e) :=
  reading fun hlike => by rw [hlike.names, eval_congr huntouched]

/-- A pinned temporary reads as what it holds. -/
theorem temp {id : TempId} {value : m.Val} {note : Note} {access : Access} (hid : pinned id)
    (hheld : held id = some value) :
    Mirrors pinned held (Meaning.valueOf (.temp note id access)) (Pure.pure value) := by
  intro state other hlike
  have hvalue : runFrom (Meaning.valueOf (.temp note id access)) state = (.ok value, state) := by
    simp only [Meaning.valueOf, runFrom_reading, eval, hlike.temps hid, hheld, Machine.known,
      runFrom_pure]
  rw [hvalue]
  exact ⟨rfl, hlike⟩

theorem setName (name : String) (value : m.Val) :
    Mirrors pinned held (modify fun state => state.setName name value : Action m Unit)
      (modify fun state => state.setName name value) := by
  intro state other hlike
  simp only [runFrom_modify]
  refine ⟨trivial, ?_, hlike.memory, hlike.temps⟩
  simp only [State.setName, hlike.names]

theorem forEach {step other : β → Action m (Outcome m)} {orelse otherwise : Action m (Outcome m)}
    (hstep : ∀ item, Mirrors pinned held (step item) (other item))
    (horelse : Mirrors pinned held orelse otherwise) (items : List β) :
    Mirrors pinned held (Meaning.forEach step orelse items)
      (Meaning.forEach other otherwise items) := by
  induction items with
  | nil => exact horelse
  | cons item items ih =>
      refine (hstep item).bind fun outcome => ?_
      cases outcome with
      | normal => exact ih
      | continues => exact ih
      | breaks => exact pure _
      | returns value => exact pure _

theorem repeatWhile {test holds : Action m Bool}
    {body body' orelse otherwise : Action m (Outcome m)}
    (htest : Mirrors pinned held test holds) (hbody : Mirrors pinned held body body')
    (horelse : Mirrors pinned held orelse otherwise) (fuel : Nat) :
    Mirrors pinned held (Meaning.repeatWhile test body orelse fuel)
      (Meaning.repeatWhile holds body' otherwise fuel) := by
  induction fuel with
  | zero => exact throw _
  | succ fuel ih =>
      refine htest.bind fun goes => ?_
      cases goes with
      | false => exact horelse
      | true =>
          refine hbody.bind fun outcome => ?_
          cases outcome with
          | normal => exact ih
          | continues => exact ih
          | breaks => exact pure _
          | returns value => exact pure _

theorem forCounters {step other : Int → Action m (Outcome m)}
    {orelse otherwise : Action m (Outcome m)} (fuel : Nat)
    (hstep : ∀ counter, Mirrors pinned held (step counter) (other counter))
    (horelse : Mirrors pinned held orelse otherwise) (value : m.Val) :
    Mirrors pinned held (Meaning.forCounters fuel step orelse value)
      (Meaning.forCounters fuel other otherwise value) := by
  unfold Meaning.forCounters
  split
  · split
    · exact horelse
    · split
      · exact forEach hstep horelse _
      · exact forEach hstep (throw _) _
  · exact throw _

theorem mapM {es : List Expr} (huntouched : Untouched (Expr.nodesAll es)) :
    Mirrors pinned held (es.mapM Meaning.valueOf : Action m (List m.Val))
      (es.mapM Meaning.valueOf) := by
  induction es with
  | nil => exact pure _
  | cons e es ih =>
      simp only [Expr.nodesAll, untouched_append] at huntouched
      rw [List.mapM_cons]
      exact (valueOf huntouched.1).bind fun _ => (ih huntouched.2).bind fun _ => pure _

mutual

theorem store {target : Expr} (huntouched : Untouched target.nodes) (value : m.Val) :
    Mirrors pinned held (store target value : Action m Unit) (store target value) := by
  cases target with
  | name note id access =>
      simp only [Meaning.store]
      exact setName id value
  | temp => simp [Expr.nodes, Expr.isTemp] at huntouched
  | tuple note elts access =>
      simp only [Expr.nodes, untouched_cons] at huntouched
      simp only [Meaning.store]
      exact (lift _).bind fun values => storeEach huntouched.2 values
  | list note elts access =>
      simp only [Expr.nodes, untouched_cons] at huntouched
      simp only [Meaning.store]
      exact (lift _).bind fun values => storeEach huntouched.2 values
  | subscript note array selector access =>
      simp only [Expr.nodes, untouched_cons, untouched_append] at huntouched
      obtain ⟨_, harray, hselector⟩ := huntouched
      simp only [Meaning.store]
      exact (valueOf harray).bind fun _ => (valueOf hselector).bind fun _ => lift _
  | «attribute» note node attr access =>
      simp only [Expr.nodes, untouched_cons] at huntouched
      simp only [Meaning.store]
      exact (valueOf huntouched.2).bind fun _ => lift _
  | arrayAttribute note attr node access =>
      simp only [Expr.nodes, untouched_cons] at huntouched
      simp only [Meaning.store]
      exact (valueOf huntouched.2).bind fun _ => lift _
  | _ =>
      simp only [Meaning.store]
      exact lift _

theorem storeEach {targets : List Expr} (huntouched : Untouched (Expr.nodesAll targets))
    (values : List m.Val) :
    Mirrors pinned held (storeEach targets values : Action m Unit) (storeEach targets values) := by
  cases targets with
  | nil =>
      simp only [Meaning.storeEach]
      exact pure ()
  | cons target targets =>
      simp only [Expr.nodesAll, untouched_append] at huntouched
      cases values with
      | nil =>
          simp only [Meaning.storeEach]
          exact throw _
      | cons value values =>
          simp only [Meaning.storeEach]
          exact (store huntouched.1 value).bind fun _ => storeEach huntouched.2 values

end

end Mirrors

end Meaning

end KernelFront
