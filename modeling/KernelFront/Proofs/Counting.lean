import KernelFront.Loops
import KernelFront.Proofs.Dialogue
import KernelFront.Proofs.Mirror
import KernelFront.Proofs.WellTyped

/-! # Counted loops keep their meaning

A loop over an array becomes a loop over its positions, which reads the array through its name or
through a temporary that was set before the loop. Inner loops use temporaries with lower numbers
than the loops around them, so no body touches the temporaries that the loop around it relies on.
Hence a body and what becomes of it have the same effect, if loops look the name of their array up
again for every element.
-/

namespace KernelFront

/-- Statements without temporaries and counters. -/
def Plain (stmts : List Stmt) : Prop := ∀ stmt ∈ stmts, Untouched stmt.nodes ∧ stmt.Uncounted

@[simp] theorem plain_nil : Plain [] := List.forall_mem_nil _

@[simp] theorem plain_cons {stmt : Stmt} {stmts : List Stmt} :
    Plain (stmt :: stmts) ↔ (Untouched stmt.nodes ∧ stmt.Uncounted) ∧ Plain stmts :=
  List.forall_mem_cons

@[simp] theorem plain_append {first second : List Stmt} :
    Plain (first ++ second) ↔ Plain first ∧ Plain second :=
  List.forall_mem_append

/-- The statements of a well-typed function. -/
theorem FunctionDef.WellTyped.plain {index ret : Ty} {func : FunctionDef}
    (hfunc : func.WellTyped index ret) : Plain func.statements := by
  intro stmt hstmt
  constructor
  · intro node hnode
    have hagrees := hfunc.nodes node (List.mem_flatMap.mpr ⟨stmt, hstmt, hnode⟩)
    cases node with
    | temp => exact hagrees.elim
    | _ => rfl
  · have hagrees := hfunc.statements stmt hstmt
    cases stmt with
    | forIn => exact hagrees
    | _ => trivial

namespace Loops

/-- The counted loop over the elements of an array. -/
def overArray (table : SymbolTable) (indexType : Ty) (span : Span) (target array : Expr) (elem : Ty)
    (body orelse : List Stmt) (id : TempId) : Stmt :=
  let counter := temp id .load indexType span
  .forIn span target (positions table indexType array span)
    (storeElement table target array counter elem span :: body) orelse (some counter)

theorem reaches_allocate {ty : Ty} {kind : TempKind} {before after : List TempDecl} {id : TempId} :
    Pass.Reaches (allocate ty kind) before id after ↔
      id = ⟨before.length⟩ ∧ after = before ++ [⟨⟨before.length⟩, ty, kind⟩] := by
  simp only [allocate, TempDecl.next, Pass.reaches_bind, Pass.reaches_get, Pass.reaches_set,
    Pass.reaches_pure]
  constructor
  · rintro ⟨_, _, ⟨rfl, rfl⟩, _, _, rfl, rfl, rfl⟩
    exact ⟨rfl, rfl⟩
  · rintro ⟨rfl, rfl⟩
    exact ⟨_, _, ⟨rfl, rfl⟩, ⟨⟩, _, rfl, rfl, rfl⟩

/-- What becomes of a loop. -/
inductive Counted (table : SymbolTable) (indexType : Ty) (span : Span) (target iter : Expr)
    (body orelse : List Stmt) (before : List TempDecl) : List Stmt → List TempDecl → Prop where
  | range (hiter : iter.ty = some .range) :
      Counted table indexType span target iter body orelse before
        [.forIn span target iter body orelse (some (target.withAccess .load))] before
  | named {elem : Ty} {layout : Layout}
      (hiter : iter.ty = some (.array elem layout)) (hname : iter.asName.isSome) :
      Counted table indexType span target iter body orelse before
        [overArray table indexType span target iter elem body orelse ⟨before.length⟩]
        (before ++ [⟨⟨before.length⟩, indexType, .index⟩])
  | stored {elem : Ty} {layout : Layout}
      (hiter : iter.ty = some (.array elem layout)) (hname : iter.asName = none) :
      Counted table indexType span target iter body orelse before
        [.assign iter.span [temp ⟨before.length⟩ .store (.array elem layout) iter.span] iter,
          overArray table indexType span target
            (temp ⟨before.length⟩ .load (.array elem layout) iter.span) elem body orelse
            ⟨before.length + 1⟩]
        (before ++ [⟨⟨before.length⟩, .array elem layout, .array⟩,
          ⟨⟨before.length + 1⟩, indexType, .index⟩])

theorem Counted.le {table : SymbolTable} {indexType : Ty} {span : Span} {target iter : Expr}
    {body orelse lowered : List Stmt} {before after : List TempDecl}
    (hcounted : Counted table indexType span target iter body orelse before lowered after) :
    before.length ≤ after.length := by
  cases hcounted <;> simp

theorem counted_lowerLoop {table : SymbolTable} {indexType : Ty} {span : Span} {target iter : Expr}
    {body orelse lowered : List Stmt} {before after : List TempDecl}
    (hlower : Pass.Reaches (lowerLoop table indexType span target iter body orelse) before lowered
      after) :
    target.asName.isSome ∧
      Counted table indexType span target iter body orelse before lowered after := by
  unfold lowerLoop at hlower
  split at hlower
  · simp at hlower
  · rename_i htarget
    refine ⟨by simpa [Option.isSome_iff_ne_none] using htarget, ?_⟩
    cases hiter : iter.ty with
    | none => simp [hiter] at hlower
    | some ty =>
        simp only [hiter, Option.getD_some] at hlower
        split at hlower
        · simp only [Pass.reaches_bind, Pass.reaches_pure, Pass.reaches_lift] at hlower
          obtain ⟨_, _, ⟨rfl, rfl⟩, _, _, ⟨_, rfl⟩, rfl, rfl⟩ := hlower
          exact .range hiter
        · cases hname : iter.asName with
          | none =>
              simp only [evaluateOnce, hname, Option.isSome_none, Bool.false_eq_true, if_false,
                Pass.reaches_bind, Pass.reaches_pure, Pass.reaches_lift, reaches_allocate] at hlower
              obtain ⟨_, _, ⟨_, _, ⟨rfl, rfl⟩, rfl, rfl⟩, _, _, ⟨rfl, rfl⟩, _, _, ⟨rfl, rfl⟩, _, _,
                ⟨_, rfl⟩, rfl, rfl⟩ := hlower
              simp only [List.append_assoc, List.length_append, List.length_singleton]
              exact .stored hiter hname
          | some name =>
              simp only [evaluateOnce, hname, Option.isSome_some, if_true, Pass.reaches_bind,
                Pass.reaches_pure, Pass.reaches_lift, reaches_allocate] at hlower
              obtain ⟨_, _, ⟨rfl, rfl⟩, _, _, ⟨rfl, rfl⟩, _, _, ⟨rfl, rfl⟩, _, _, ⟨_, rfl⟩, rfl,
                rfl⟩ := hlower
              exact .named hiter (by rw [hname]; rfl)
        · simp at hlower

end Loops

namespace Meaning

variable {m : Machine} {α β : Type}

/-! ## The values of the expressions of a counted loop -/

@[simp] theorem lift_pure (value : α) : lift (pure value : Effect m.Memory α) = pure value := rfl

theorem lift_bind (effect : Effect m.Memory α) (next : α → Effect m.Memory β) :
    lift (effect >>= next) = lift effect >>= fun value => lift (next value) :=
  reading_bind (fun _ => effect) (fun value _ => next value) fun _ _ _ => rfl

theorem valueOf_int (note : Note) (value : Int) :
    (valueOf (.const note (.int value)) : Action m m.Val) = pure (.int value) := by
  simp only [valueOf, eval]
  rfl

theorem valueOf_coercion (note : Note) (node : Expr) (target : Ty) :
    (valueOf (.coercion note node target) : Action m m.Val) =
      valueOf node >>= fun value => lift (m.convertTo target value) := by
  simp only [valueOf, eval]
  exact reading_bind _ _ fun _ _ _ => rfl

theorem valueOf_shape (note : Note) (array : Expr) (access : Access) :
    (valueOf (.arrayAttribute note .shape array access) : Action m m.Val) =
      valueOf array >>= fun value => lift (m.shapeOf value) := by
  simp only [valueOf, eval]
  exact reading_bind _ _ fun _ _ _ => rfl

/-- An element at an index that is an expression of its own. -/
theorem valueOf_subscript (note : Note) (value selector : Expr) (access : Access) :
    (valueOf (.subscript note value selector access) : Action m m.Val) =
      valueOf value >>= fun value' => valueOf selector >>= fun selector' =>
        lift (match selector' with
          | .int index => m.item value' index
          | selector' =>
              m.perform (.subscript note value selector access) [value', selector']) := by
  simp only [valueOf, eval]
  rw [reading_bind _ _ fun _ _ _ => rfl]
  refine bind_congr fun value' => ?_
  exact reading_bind _ _ fun _ _ _ => rfl

theorem valueOf_range (note : Note) (start stop stride : Expr) :
    (valueOf (.range note start stop stride) : Action m m.Val) =
      valueOf start >>= fun start => lift (m.count start) >>= fun start =>
        valueOf stop >>= fun stop => lift (m.count stop) >>= fun stop =>
          valueOf stride >>= fun stride => lift (m.count stride) >>= fun stride =>
            pure (.range start stop stride) := by
  simp only [valueOf, eval]
  rw [reading_bind _ _ fun _ _ _ => rfl]
  refine bind_congr fun _ => ?_
  rw [reading_bind _ _ fun _ _ _ => rfl]
  refine bind_congr fun _ => ?_
  rw [reading_bind _ _ fun _ _ _ => rfl]
  refine bind_congr fun _ => ?_
  rw [reading_bind _ _ fun _ _ _ => rfl]
  refine bind_congr fun _ => ?_
  rw [reading_bind _ _ fun _ _ _ => rfl]
  refine bind_congr fun _ => ?_
  exact reading_bind _ _ fun _ _ _ => rfl

theorem shapeOf_item (value : m.Val) :
    (m.shapeOf value >>= fun shape => m.item shape 0) =
      m.lengthOf value >>= fun length => pure (.int length) := by
  cases value with
  | array dims data => cases dims <;> rfl
  | _ => rfl

theorem counts_of_isInt {ty : Ty} (hty : ty.isInt) : m.Counts ty := by
  intro length
  simp only [Machine.convertTo, hty, if_true, pure_bind, Machine.count]

theorem valueOf_arrayLength (array : Expr) (span : Span) :
    (valueOf (Loops.arrayLength array span) : Action m m.Val) =
      valueOf array >>= fun value => lift (m.lengthOf value) >>= fun length =>
        pure (.int length) := by
  simp only [Loops.arrayLength, Loops.int, valueOf_subscript, valueOf_shape, valueOf_int,
    bind_assoc, pure_bind]
  refine bind_congr fun value => ?_
  rw [← lift_bind, shapeOf_item, lift_bind]
  rfl

/-- A length as the bound of a range in the index type. -/
theorem valueOf_convert_length (table : SymbolTable) {indexType : Ty} (hindex : m.Counts indexType)
    (array : Expr) (span : Span) :
    (valueOf ((Loops.arrayLength array span).convert table indexType) >>= fun stop =>
      lift (m.count stop) : Action m Int) =
      valueOf array >>= fun value => lift (m.lengthOf value) >>= fun length =>
        pure (length : Int) := by
  unfold Expr.convert
  split
  · simp only [valueOf_arrayLength, bind_assoc, pure_bind, Machine.count, lift_pure]
  · simp only [valueOf_coercion, valueOf_arrayLength, bind_assoc, pure_bind]
    refine bind_congr fun value => bind_congr fun length => ?_
    rw [← lift_bind, hindex length, lift_pure]

/-- The positions of an array are the numbers below its length. -/
theorem valueOf_positions {table : SymbolTable} {indexType : Ty} (hindex : m.Counts indexType)
    (array : Expr) (span : Span) :
    (valueOf (Loops.positions table indexType array span) : Action m m.Val) =
      valueOf array >>= fun value => lift (m.lengthOf value) >>= fun length =>
        pure (.range 0 length 1) := by
  have hstop := valueOf_convert_length table hindex array span
  have hrange := congrArg (fun stop => stop >>= fun stop => pure (.range 0 stop 1 : m.Val)) hstop
  simp only [bind_assoc, pure_bind] at hrange
  simpa only [Loops.positions, Loops.int, valueOf_range, valueOf_int, Machine.count, lift_pure,
    pure_bind] using hrange

theorem forEach_map (step : β → Action m (Outcome m)) (orelse : Action m (Outcome m))
    (f : α → β) (items : List α) :
    forEach step orelse (items.map f) = forEach (fun item => step (f item)) orelse items := by
  induction items with
  | nil => rfl
  | cons item items ih =>
      simp only [List.map_cons, forEach, ih]

theorem forCounters_positions (fuel : Nat) (step : Int → Action m (Outcome m))
    (orelse : Action m (Outcome m)) (length : Nat) :
    forCounters fuel step orelse (.range 0 length 1) =
      forEach (fun position : Nat => step position) orelse (List.range length) := by
  have hcount : (((length : Int) - 0 + 1 - 1) / 1).toNat = length := by omega
  simp only [forCounters]
  split
  · rename_i hempty
    obtain rfl : length = 0 := by omega
    rfl
  · simp only [Int.zero_lt_one, if_true, hcount, forEach_map, Int.zero_add, Int.one_mul]

/-! ## Loops -/

theorem execBody_assign (way : Reading) (fuel : Nat) (span : Span) (target value : Expr)
    (body : List Stmt) :
    (execBody way fuel (.assign span [target] value :: body) : Action m (Outcome m)) =
      valueOf value >>= fun value => store target value >>= fun _ => execBody way fuel body := by
  simp only [execBody, exec, List.length_singleton, List.replicate_one, storeEach, bind_assoc,
    pure_bind]

variable {pinned : TempId → Prop} {held : TempId → Option m.Val}

/-- The element that a counted loop stores. -/
theorem mirrors_element (table : SymbolTable) (indexType elem wanted : Ty) (span : Span)
    {array : Expr} {again : Action m m.Val} {id : TempId} {position : Nat}
    (hread : Mirrors pinned held (valueOf array) again) (hid : pinned id)
    (hheld : held id = some (.int position)) :
    Mirrors pinned held
      (valueOf ((Expr.subscript (.annotated span elem) array
        (Loops.temp id .load indexType span) .load).convert table wanted))
      (again >>= fun array => lift (m.item array position) >>= fun element =>
        lift (m.fit elem wanted element)) := by
  have helement : Mirrors pinned held
      (valueOf (.subscript (.annotated span elem) array (Loops.temp id .load indexType span) .load))
      (again >>= fun array => lift (m.item array position)) := by
    rw [valueOf_subscript]
    refine hread.bind fun value => ?_
    have hcounter : Mirrors pinned held
        (valueOf (Loops.temp id .load indexType span)) (pure (.int position)) :=
      .temp hid hheld
    have hitem := hcounter.bind fun selector => Mirrors.lift (match selector with
      | .int index => m.item value index
      | selector => m.perform (.subscript (.annotated span elem) array
          (Loops.temp id .load indexType span) .load) [value, selector])
    rwa [pure_bind] at hitem
  have htype : (Expr.subscript (.annotated span elem) array
      (Loops.temp id .load indexType span) .load).typeIn? table = some elem := rfl
  unfold Expr.convert Machine.fit
  rw [htype]
  by_cases hsame : elem = wanted
  · simpa only [hsame, if_true, lift_pure, bind_pure] using helement
  · have hother : ¬ some elem = some wanted := fun h => hsame (Option.some.inj h)
    simp only [hother, hsame, if_false, valueOf_coercion]
    rw [← bind_assoc]
    exact helement.bind fun value => .lift _

theorem mirrors_overArray {table : SymbolTable} {indexType elem : Ty} {span : Span}
    {target array : Expr} {again : Action m m.Val} {counter : TempId} {fuel : Nat} {way : Reading}
    {body orelse lowered otherwise : List Stmt} (hindex : m.Counts indexType)
    (htarget : Untouched target.nodes) (hfree : ¬ pinned counter)
    (hread : ∀ {more : TempId → Prop} {holds : TempId → Option m.Val},
      (∀ {id}, pinned id → more id) → (∀ {id}, pinned id → holds id = held id) →
        Mirrors more holds (valueOf array) again)
    (hbody : ∀ holds : TempId → Option m.Val,
      Mirrors (fun id => pinned id ∨ id = counter) holds (execBody way fuel lowered)
        (execBody .again fuel body))
    (horelse : Mirrors pinned held (execBody way fuel otherwise) (execBody .again fuel orelse)) :
    Mirrors pinned held
      (exec way fuel
        (Loops.overArray table indexType span target array elem lowered otherwise counter))
      (again >>= forElements again target elem (execBody .again fuel body)
        (execBody .again fuel orelse)) := by
  simp only [Loops.overArray, exec, valueOf_positions hindex, bind_assoc, pure_bind,
    forCounters_positions]
  refine (hread (fun hid => hid) fun _ => rfl).bind fun value => ?_
  refine (Mirrors.lift _).bind fun length => ?_
  refine Mirrors.forEach (fun position => ?_) horelse _
  simp only [Loops.storeElement, execBody_assign]
  refine Mirrors.pin hfree ?_
  -- From here on the counter holds the position.
  have hagain : Mirrors (fun id => pinned id ∨ id = counter)
      (fun id => if id = counter then some (.int position) else held id) (valueOf array) again := by
    refine hread .inl fun hid => if_neg ?_
    rintro rfl
    exact hfree hid
  have helement := mirrors_element table indexType elem (target.ty.getD .object) span hagain
    (.inr rfl) (if_pos rfl)
  have hstep := helement.bind fun value => (Mirrors.store htarget value).bind fun _ => hbody _
  simpa only [bind_assoc] using hstep

@[simp] theorem execBody_singleton (way : Reading) (fuel : Nat) (stmt : Stmt) :
    (execBody way fuel [stmt] : Action m (Outcome m)) = exec way fuel stmt := by
  simp only [execBody]
  conv => rhs; rw [← bind_pure (exec way fuel stmt)]
  refine bind_congr fun outcome => ?_
  cases outcome <;> rfl

theorem execBody_append (way : Reading) (fuel : Nat) (first second : List Stmt) :
    (execBody way fuel (first ++ second) : Action m (Outcome m)) =
      execBody way fuel first >>= fun outcome =>
        match outcome with
        | .normal => execBody way fuel second
        | outcome => pure outcome := by
  induction first with
  | nil => simp only [List.nil_append, execBody, pure_bind]
  | cons stmt first ih =>
      simp only [List.cons_append, execBody, ih, bind_assoc]
      refine bind_congr fun outcome => ?_
      cases outcome <;> simp only [pure_bind]

theorem store_withAccess {target : Expr} (htarget : target.asName.isSome) (access : Access)
    (value : m.Val) :
    (store (target.withAccess access) value : Action m Unit) = store target value := by
  cases target with
  | name note id old => simp only [Expr.withAccess, store]
  | _ => simp [Expr.asName] at htarget

/-- A loop of the source and what becomes of it. -/
theorem mirrors_counted {table : SymbolTable} {indexType : Ty} {span : Span} {target iter : Expr}
    {body orelse lowered otherwise result : List Stmt} {before after : List TempDecl} {fuel : Nat}
    {way : Reading} (hindex : m.Counts indexType) (htarget : Untouched target.nodes)
    (hname : target.asName.isSome) (hiter : Untouched iter.nodes)
    (hcounted :
      Loops.Counted table indexType span target iter lowered otherwise before result after)
    (hbody : ∀ held : TempId → Option m.Val, Mirrors (fun id => before.length ≤ id.index) held
      (execBody way fuel lowered) (execBody .again fuel body))
    (horelse : ∀ held : TempId → Option m.Val, Mirrors (fun id => before.length ≤ id.index) held
      (execBody way fuel otherwise) (execBody .again fuel orelse))
    (held : TempId → Option m.Val) :
    Mirrors (fun id => after.length ≤ id.index) held (execBody way fuel result)
      (exec .again fuel (.forIn span target iter body orelse none)) := by
  cases hcounted with
  | range hty =>
      rw [execBody_singleton]
      simp only [exec, hty]
      refine (Mirrors.valueOf hiter).bind fun value => ?_
      refine Mirrors.forCounters fuel (fun position => ?_) (horelse held) value
      rw [store_withAccess hname]
      exact (Mirrors.store htarget _).bind fun _ => hbody held
  | @named elem layout hty hplain =>
      rw [execBody_singleton]
      simp only [exec, hty, hplain, and_self, if_true]
      refine mirrors_overArray hindex htarget ?_ (fun _ _ => Mirrors.valueOf hiter) ?_ ?_
      · simp
      · refine fun holds => Mirrors.restrict hbody fun {id} hid => ?_
        simp only [List.length_append, List.length_singleton] at hid
        obtain hid | rfl := hid
        · exact Nat.le_of_succ_le hid
        · exact Nat.le.refl
      · refine Mirrors.restrict horelse fun {id} hid => ?_
        simp only [List.length_append, List.length_singleton] at hid
        exact Nat.le_of_succ_le hid
  | @stored elem layout hty hplain =>
      simp only [exec, hty, hplain, Option.isSome_none, Bool.false_eq_true, and_false, if_false,
        execBody_assign, execBody_singleton]
      refine (Mirrors.valueOf hiter).bind fun array => ?_
      refine Mirrors.pin (by simp) ?_
      -- From here on the first temporary holds the array.
      rw [← pure_bind array (forElements (pure array) target elem (execBody .again fuel body)
        (execBody .again fuel orelse))]
      refine mirrors_overArray hindex htarget ?_ ?_ ?_ ?_
      · simp
      · exact fun hmore hholds => Mirrors.temp (hmore (.inr rfl))
          ((hholds (.inr rfl)).trans (if_pos rfl))
      · refine fun holds => Mirrors.restrict hbody fun {id} hid => ?_
        simp only [List.length_append, List.length_cons, List.length_nil] at hid
        obtain (hid | rfl) | rfl := hid
        · omega
        · exact Nat.le.refl
        · exact Nat.le_succ _
      · refine Mirrors.restrict horelse fun {id} hid => ?_
        simp only [List.length_append, List.length_cons, List.length_nil] at hid
        obtain hid | rfl := hid
        · omega
        · exact Nat.le.refl

/-! ## Bodies -/

variable {table : SymbolTable} {indexType : Ty} {fuel : Nat} {way : Reading}

theorem mirrors_simple {stmt : Stmt} (hsimple : stmt.bodies = [])
    (huntouched : Untouched stmt.nodes) (pinned : TempId → Prop) (held : TempId → Option m.Val) :
    Mirrors pinned held (exec way fuel stmt) (exec .again fuel stmt) := by
  simp only [Stmt.nodes] at huntouched
  cases stmt with
  | forIn | whileLoop | branch => simp [Stmt.bodies] at hsimple
  | assign span targets value =>
      simp only [Stmt.exprs, Expr.nodesAll_append, untouched_append, Expr.nodesAll,
        List.append_nil] at huntouched
      simp only [exec]
      refine (Mirrors.valueOf huntouched.2).bind fun value => ?_
      exact (Mirrors.storeEach huntouched.1 _).bind fun _ => .pure _
  | augAssign span target op value =>
      simp only [Stmt.exprs, Expr.nodesAll, untouched_append, List.append_nil] at huntouched
      simp only [exec]
      refine (Mirrors.valueOf huntouched.1).bind fun old => ?_
      refine (Mirrors.valueOf huntouched.2).bind fun value => ?_
      refine (Mirrors.lift _).bind fun result => ?_
      exact (Mirrors.store huntouched.1 _).bind fun _ => .pure _
  | ret span value =>
      cases value with
      | none =>
          simp only [exec]
          exact .pure _
      | some value =>
          simp only [Stmt.exprs, Option.toList_some, Expr.nodesAll, List.append_nil] at huntouched
          simp only [exec]
          exact (Mirrors.valueOf huntouched).bind fun _ => .pure _
  | expr span value =>
      simp only [Stmt.exprs, Expr.nodesAll, List.append_nil] at huntouched
      simp only [exec]
      exact (Mirrors.valueOf huntouched).bind fun _ => .pure _
  | print span values dest newline =>
      simp only [Stmt.exprs, Expr.nodesAll_append, untouched_append] at huntouched
      simp only [exec]
      have hrest (place : Option m.Val) : Mirrors pinned held
          (values.mapM valueOf >>= fun values => lift (m.print place values newline) >>= fun _ =>
            pure .normal : Action m (Outcome m))
          (values.mapM valueOf >>= fun values => lift (m.print place values newline) >>= fun _ =>
            pure .normal) :=
        (Mirrors.mapM huntouched.2).bind fun _ => (Mirrors.lift _).bind fun _ => .pure _
      cases dest with
      | none => exact hrest none
      | some dest =>
          simp only [Option.toList_some, Expr.nodesAll, List.append_nil] at huntouched
          simp only [Option.mapM_some, map_eq_pure_bind, bind_assoc, pure_bind]
          exact (Mirrors.valueOf huntouched.1).bind fun place => hrest (some place)
  | global | pass =>
      simp only [exec]
      exact .pure _
  | «break» =>
      simp only [exec]
      exact .pure _
  | «continue» =>
      simp only [exec]
      exact .pure _

mutual

/-- A statement of the source and what becomes of it have the same effect, up to the temporaries
that were made for it. -/
theorem mirrors_lowerStmt {stmt : Stmt} {lowered : List Stmt} {before after : List TempDecl}
    (hindex : m.Counts indexType) (hplain : Plain stmt.nested)
    (hlower : Pass.Reaches (Stmt.rebuildM pure (Loops.lowerStmt table indexType) stmt) before
      lowered after) :
    before.length ≤ after.length ∧ ∀ held : TempId → Option m.Val,
      Mirrors (fun id => after.length ≤ id.index) held (execBody way fuel lowered)
        (exec .again fuel stmt) := by
  cases stmt with
  | forIn span target iter body orelse index =>
      simp only [Stmt.nested, plain_cons, plain_append, Stmt.nodes, Stmt.exprs, Expr.nodesAll,
        untouched_append, Stmt.Uncounted] at hplain
      obtain ⟨⟨⟨htarget, hiter, _⟩, rfl⟩, hbody, horelse⟩ := hplain
      simp only [Stmt.rebuildM, Expr.rebuildM_pure, Expr.rebuildPartM_pure, pure_bind,
        Pass.reaches_bind, Loops.lowerStmt] at hlower
      obtain ⟨body', middle, hbody', orelse', last, horelse', hloop⟩ := hlower
      obtain ⟨hname, hcounted⟩ := Loops.counted_lowerLoop hloop
      obtain ⟨hfirst, hbody⟩ := mirrors_lowerBody hindex hbody hbody'
      obtain ⟨hsecond, horelse⟩ := mirrors_lowerBody hindex horelse horelse'
      refine ⟨Nat.le_trans hfirst (Nat.le_trans hsecond hcounted.le), ?_⟩
      exact mirrors_counted hindex htarget hname hiter hcounted
        (fun _ => Mirrors.restrict hbody fun hid => Nat.le_trans hsecond hid) horelse
  | whileLoop span test body orelse =>
      simp only [Stmt.nested, plain_cons, plain_append, Stmt.nodes, Stmt.exprs, Expr.nodesAll,
        untouched_append] at hplain
      obtain ⟨⟨⟨htest, _⟩, _⟩, hbody, horelse⟩ := hplain
      simp only [Stmt.rebuildM, Expr.rebuildM_pure, pure_bind, Pass.reaches_bind, Loops.lowerStmt,
        Pass.reaches_pure] at hlower
      obtain ⟨body', middle, hbody', orelse', last, horelse', rfl, rfl⟩ := hlower
      obtain ⟨hfirst, hbody⟩ := mirrors_lowerBody hindex hbody hbody'
      obtain ⟨hsecond, horelse⟩ := mirrors_lowerBody hindex horelse horelse'
      refine ⟨Nat.le_trans hfirst hsecond, fun held => ?_⟩
      rw [execBody_singleton]
      simp only [exec]
      refine Mirrors.repeatWhile ?_ ?_ (horelse held) fuel
      · exact (Mirrors.valueOf htest).bind fun _ => .lift _
      · exact Mirrors.restrict hbody fun hid => Nat.le_trans hsecond hid
  | branch span test body orelse =>
      simp only [Stmt.nested, plain_cons, plain_append, Stmt.nodes, Stmt.exprs, Expr.nodesAll,
        untouched_append] at hplain
      obtain ⟨⟨⟨htest, _⟩, _⟩, hbody, horelse⟩ := hplain
      simp only [Stmt.rebuildM, Expr.rebuildM_pure, pure_bind, Pass.reaches_bind, Loops.lowerStmt,
        Pass.reaches_pure] at hlower
      obtain ⟨body', middle, hbody', orelse', last, horelse', rfl, rfl⟩ := hlower
      obtain ⟨hfirst, hbody⟩ := mirrors_lowerBody hindex hbody hbody'
      obtain ⟨hsecond, horelse⟩ := mirrors_lowerBody hindex horelse horelse'
      refine ⟨Nat.le_trans hfirst hsecond, fun held => ?_⟩
      rw [execBody_singleton]
      simp only [exec]
      refine (Mirrors.valueOf htest).bind fun value => (Mirrors.lift _).bind fun holds => ?_
      cases holds with
      | false => exact horelse held
      | true => exact Mirrors.restrict hbody fun hid => Nat.le_trans hsecond hid
  | _ =>
      simp only [Stmt.nested, plain_cons] at hplain
      simp only [Stmt.rebuildM, Expr.rebuildM_pure, Expr.rebuildAllM_pure, Expr.rebuildPartM_pure,
        pure_bind, Loops.lowerStmt, Pass.reaches_pure] at hlower
      obtain ⟨rfl, rfl⟩ := hlower
      refine ⟨Nat.le.refl, fun held => ?_⟩
      rw [execBody_singleton]
      exact mirrors_simple rfl hplain.1.1 _ held

/-- A body of the source and what becomes of it have the same effect, up to the temporaries that
were made for it. -/
theorem mirrors_lowerBody {body lowered : List Stmt} {before after : List TempDecl}
    (hindex : m.Counts indexType) (hplain : Plain (Stmt.nestedBody body))
    (hlower : Pass.Reaches (Stmt.rebuildBodyM pure (Loops.lowerStmt table indexType) body) before
      lowered after) :
    before.length ≤ after.length ∧ ∀ held : TempId → Option m.Val,
      Mirrors (fun id => after.length ≤ id.index) held (execBody way fuel lowered)
        (execBody .again fuel body) := by
  cases body with
  | nil =>
      simp only [Stmt.rebuildBodyM, Pass.reaches_pure] at hlower
      obtain ⟨rfl, rfl⟩ := hlower
      refine ⟨Nat.le.refl, fun held => ?_⟩
      simp only [execBody]
      exact .pure _
  | cons stmt body =>
      simp only [Stmt.nestedBody, plain_append] at hplain
      simp only [Stmt.rebuildBodyM, Pass.reaches_bind, Pass.reaches_pure] at hlower
      obtain ⟨stmts, middle, hstmt', rest, last, hbody', rfl, rfl⟩ := hlower
      obtain ⟨hfirst, hstmt⟩ := mirrors_lowerStmt hindex hplain.1 hstmt'
      obtain ⟨hsecond, hbody⟩ := mirrors_lowerBody hindex hplain.2 hbody'
      refine ⟨Nat.le_trans hfirst hsecond, fun held => ?_⟩
      rw [execBody_append]
      simp only [execBody]
      refine Mirrors.bind (Mirrors.restrict hstmt fun hid => Nat.le_trans hsecond hid) ?_
      intro outcome
      cases outcome with
      | normal => exact hbody held
      | breaks => exact .pure _
      | continues => exact .pure _
      | returns value => exact .pure _

end

end Meaning

end KernelFront
