import KernelFront.Proofs.Packing

/-! # Counted loops in compiled functions

A loop over an array comes out as a loop over a range in the index type that counts in a temporary
made for it. A loop over anything of the range type is left as it is and counts in its own target.
So it is a counted loop in the index type only if its range is written out in place and its target
has the index type; a range that is kept in a variable, or a target that took another type before,
stays. The loops of a body and of what becomes of it correspond to each other one by one.
-/

namespace KernelFront

/-! ## The loops of a function -/

namespace Stmt

/-- Whether a statement is a loop over an iterable. -/
def isLoop : Stmt → Bool
  | .forIn _ _ _ _ _ _ => true
  | _ => false

/-- The loops of a body at every depth, each before those in its own bodies. -/
def loops (body : List Stmt) : List Stmt := (nestedBody body).filter isLoop

/-- The loops in the bodies of a statement. -/
def innerLoops (stmt : Stmt) : List Stmt := stmt.bodies.flatMap loops

@[simp] theorem loops_nil : loops [] = [] := rfl

@[simp] theorem loops_append (first second : List Stmt) :
    loops (first ++ second) = loops first ++ loops second := by
  rw [loops, nestedBody_append, List.filter_append]
  rfl

theorem loops_cons (stmt : Stmt) (body : List Stmt) :
    loops (stmt :: body) = loops [stmt] ++ loops body :=
  loops_append [stmt] body

theorem loops_singleton (stmt : Stmt) :
    loops [stmt] = [stmt].filter isLoop ++ stmt.innerLoops := by
  cases stmt <;> simp [loops, innerLoops, nestedBody, nested, bodies, isLoop, List.filter_cons]

/-- The loop over an iterable, and then the loops inside it. -/
theorem loops_forIn (span : Span) (target iter : Expr) (body orelse : List Stmt)
    (index : Option Expr) :
    loops [.forIn span target iter body orelse index] =
      .forIn span target iter body orelse index :: (loops body ++ loops orelse) := by
  simp [loops, nestedBody, nested, isLoop, List.filter_cons]

@[simp] theorem innerLoops_forIn (span : Span) (target iter : Expr) (body orelse : List Stmt)
    (index : Option Expr) :
    innerLoops (.forIn span target iter body orelse index) = loops body ++ loops orelse := by
  simp [innerLoops, bodies]

@[simp] theorem loops_assign (span : Span) (targets : List Expr) (value : Expr) (body : List Stmt) :
    loops (.assign span targets value :: body) = loops body := rfl

theorem Reshaped.isLoop_eq {Rel : Expr → Expr → Prop} {stmt rebuilt : Stmt}
    (hreshaped : stmt.Reshaped Rel rebuilt) : rebuilt.isLoop = stmt.isLoop := by
  cases hreshaped <;> rfl

theorem Reshaped.bodies_eq_nil {Rel : Expr → Expr → Prop} {stmt rebuilt : Stmt}
    (hreshaped : stmt.Reshaped Rel rebuilt) (hsimple : stmt.bodies = []) : rebuilt.bodies = [] := by
  cases hreshaped with
  | forIn | whileLoop | branch => cases hsimple
  | _ => rfl

theorem isLoop_of_bodies {stmt : Stmt} (hsimple : stmt.bodies = []) : stmt.isLoop = false := by
  cases stmt with
  | forIn => cases hsimple
  | _ => rfl

theorem nested_of_bodies {stmt : Stmt} (hsimple : stmt.bodies = []) : stmt.nested = [stmt] := by
  cases stmt with
  | forIn | whileLoop | branch => cases hsimple
  | _ => rfl

end Stmt

/-- The loops of a function at every depth. -/
def FunctionDef.loops (func : FunctionDef) : List Stmt := Stmt.loops func.body

/-! ## Walks that keep loops

A walk that threads a list of temporaries may make new ones but forgets none. What a loop becomes
may depend on the temporaries that there are afterwards, as long as more of them do not matter.
-/

/-- The runs of computations that thread a list of temporaries. -/
structure Threads {m : Type → Type} [Monad m]
    (Runs : ∀ {α : Type}, m α → List TempDecl → α → List TempDecl → Prop) : Prop where
  pure : ∀ {α : Type} {value result : α} {before after : List TempDecl},
    Runs (pure value) before result after ↔ result = value ∧ after = before
  bind : ∀ {α β : Type} {first : m α} {next : α → m β} {result : β} {before after : List TempDecl},
    Runs (first >>= next) before result after ↔
      ∃ value middle, Runs first before value middle ∧ Runs (next value) middle result after

namespace Threads

variable {m : Type → Type} [Monad m]
  {Runs : ∀ {α : Type}, m α → List TempDecl → α → List TempDecl → Prop}

/-- No run forgets a temporary, and all of them come to something good. -/
abbrev Retains (Runs : ∀ {α : Type}, m α → List TempDecl → α → List TempDecl → Prop) (α : Type)
    (pass : m α) (good : α → Prop) : Prop :=
  ∀ before value after, Runs pass before value after → before ⊆ after ∧ good value

theorem judgement_retains (hthreads : Threads Runs) : Judgement (Retains Runs) := by
  refine ⟨fun hgood before value after hrun => ?_,
    fun hfirst hnext before value after hrun => ?_⟩
  · obtain ⟨rfl, rfl⟩ := hthreads.pure.mp hrun
    exact ⟨List.Subset.refl _, hgood⟩
  · obtain ⟨middle, temps, hmiddle, hrun⟩ := hthreads.bind.mp hrun
    obtain ⟨hgrown, hvalue⟩ := hfirst before middle temps hmiddle
    obtain ⟨hgrown', hlast⟩ := hnext middle hvalue temps value after hrun
    exact ⟨List.Subset.trans hgrown hgrown', hlast⟩

variable {f : Expr → m Expr} {g : Stmt → m (List Stmt)} {Rel : Expr → Expr → Prop}
  {R : List TempDecl → Stmt → Stmt → Prop}

/-- A statement became statements whose loops are what it became as a loop, and then those in its
bodies. -/
def Follows (R : List TempDecl → Stmt → Stmt → Prop) (temps : List TempDecl)
    (stmt rebuilt : Stmt) (result : List Stmt) : Prop :=
  ∃ own, Stmt.loops result = own ++ rebuilt.innerLoops ∧
    List.Forall₂ (R temps) ([stmt].filter Stmt.isLoop) own

theorem Follows.forall₂ {temps : List TempDecl} {stmt rebuilt : Stmt} {result : List Stmt}
    (hfollows : Follows R temps stmt rebuilt result)
    (hinner : List.Forall₂ (R temps) stmt.innerLoops rebuilt.innerLoops) :
    List.Forall₂ (R temps) (Stmt.loops [stmt]) (Stmt.loops result) := by
  obtain ⟨own, hloops, hown⟩ := hfollows
  rw [Stmt.loops_singleton, hloops]
  exact List.rel_append hown hinner

/-- A statement that stays one is followed by itself, if what becomes of a loop is allowed. -/
theorem follows_singleton {temps : List TempDecl} {stmt rebuilt : Stmt}
    (hsame : rebuilt.isLoop = stmt.isLoop) (hloop : stmt.isLoop → R temps stmt rebuilt) :
    Follows R temps stmt rebuilt [rebuilt] := by
  refine ⟨[rebuilt].filter Stmt.isLoop, Stmt.loops_singleton rebuilt, ?_⟩
  cases hstmt : stmt.isLoop with
  | false => simp [hsame, hstmt]
  | true => simpa [hsame, hstmt] using hloop hstmt

/-- No loops become of a simple statement. -/
theorem loops_rebuildSimple (hthreads : Threads Runs) {stmt : Stmt} (hsimple : stmt.bodies = [])
    (hexprs : ∀ inner ∈ stmt.nested, ∀ e ∈ inner.exprs, Retains Runs _ (e.rebuildM f) (Rel e))
    (hstmts : ∀ inner ∈ stmt.nested, ∀ rebuilt, inner.Reshaped Rel rebuilt →
      ∀ before result after, Runs (g rebuilt) before result after →
        before ⊆ after ∧ Follows R after inner rebuilt result) :
    Retains Runs _ (stmt.rebuildM f g) (fun result => Stmt.loops result = []) := by
  have hwalk : Retains Runs _ (stmt.rebuildM f g)
      (fun result => ∀ inner ∈ Stmt.nestedBody result, ¬ inner.isLoop) := by
    refine hthreads.judgement_retains.coupling.rebuildStmt (g := f) (k := g) hexprs
      fun inner hinner rebuilt hreshaped _ before result after hrun => ?_
    have hself : inner = stmt := by
      rwa [Stmt.nested_of_bodies hsimple, List.mem_singleton] at hinner
    obtain ⟨hgrown, hfollows⟩ := hstmts inner hinner rebuilt hreshaped before result after hrun
    have hrebuilt : rebuilt.innerLoops = [] := by
      rw [Stmt.innerLoops, hreshaped.bodies_eq_nil (hself ▸ hsimple), List.flatMap_nil]
    have hloops := hfollows.forall₂ (by rw [hrebuilt, Stmt.innerLoops, hself, hsimple]; exact .nil)
    have hnone : Stmt.loops [inner] = [] := by
      simp [Stmt.loops_singleton, Stmt.innerLoops, hself, hsimple, Stmt.isLoop_of_bodies hsimple]
    rw [hnone, List.forall₂_nil_left_iff] at hloops
    exact ⟨hgrown, List.filter_eq_nil_iff.mp hloops⟩
  intro before result after hrun
  obtain ⟨hgrown, hloops⟩ := hwalk before result after hrun
  exact ⟨hgrown, List.filter_eq_nil_iff.mpr hloops⟩

/-- A statement with two bodies whose expressions are rebuilt. -/
theorem loops_rebuildBodies (hthreads : Threads Runs)
    (hmono : ∀ {temps later loop loop'}, temps ⊆ later → R temps loop loop' → R later loop loop')
    {stmt : Stmt} {body orelse result : List Stmt} {before after : List TempDecl}
    {rebuilt : List Stmt → List Stmt → Stmt} (hbodies : stmt.bodies = [body, orelse])
    (hrebuilt : ∀ body' orelse', (rebuilt body' orelse').bodies = [body', orelse'])
    (hreshaped : ∀ body' orelse', (orelse = [] → orelse' = []) →
      stmt.Reshaped Rel (rebuilt body' orelse'))
    (hstmt : ∀ rebuilt, stmt.Reshaped Rel rebuilt →
      ∀ before result after, Runs (g rebuilt) before result after →
        before ⊆ after ∧ Follows R after stmt rebuilt result)
    (hbody : ∀ {before result after}, Runs (Stmt.rebuildBodyM f g body) before result after →
      before ⊆ after ∧ List.Forall₂ (R after) (Stmt.loops body) (Stmt.loops result))
    (horelse : ∀ {before result after}, Runs (Stmt.rebuildBodyM f g orelse) before result after →
      before ⊆ after ∧ List.Forall₂ (R after) (Stmt.loops orelse) (Stmt.loops result))
    (hrun : Runs (do
      let body' ← Stmt.rebuildBodyM f g body
      let orelse' ← Stmt.rebuildBodyM f g orelse
      g (rebuilt body' orelse')) before result after) :
    before ⊆ after ∧ List.Forall₂ (R after) (Stmt.loops [stmt]) (Stmt.loops result) := by
  obtain ⟨body', middle, hbody', hrun⟩ := hthreads.bind.mp hrun
  obtain ⟨orelse', last, horelse', hrun⟩ := hthreads.bind.mp hrun
  obtain ⟨hfirst, hbody⟩ := hbody hbody'
  obtain ⟨hsecond, horelse⟩ := horelse horelse'
  have hempty : orelse = [] → orelse' = [] := by
    rintro rfl
    exact (hthreads.pure.mp horelse').1
  obtain ⟨hthird, hfollows⟩ := hstmt _ (hreshaped body' orelse' hempty) _ _ _ hrun
  refine ⟨List.Subset.trans hfirst (List.Subset.trans hsecond hthird), hfollows.forall₂ ?_⟩
  simp only [Stmt.innerLoops, hbodies, hrebuilt, List.flatMap_cons, List.flatMap_nil,
    List.append_nil]
  exact List.rel_append (hbody.imp fun _ _ => hmono (List.Subset.trans hsecond hthird))
    (horelse.imp fun _ _ => hmono hthird)

mutual

/-- The loops of a statement become those of what it is rebuilt as. -/
theorem loops_rebuildStmt (hthreads : Threads Runs)
    (hmono : ∀ {temps later loop loop'}, temps ⊆ later → R temps loop loop' → R later loop loop')
    {stmt : Stmt} {before after : List TempDecl} {result : List Stmt}
    (hexprs : ∀ inner ∈ stmt.nested, ∀ e ∈ inner.exprs, Retains Runs _ (e.rebuildM f) (Rel e))
    (hstmts : ∀ inner ∈ stmt.nested, ∀ rebuilt, inner.Reshaped Rel rebuilt →
      ∀ before result after, Runs (g rebuilt) before result after →
        before ⊆ after ∧ Follows R after inner rebuilt result)
    (hrun : Runs (stmt.rebuildM f g) before result after) :
    before ⊆ after ∧ List.Forall₂ (R after) (Stmt.loops [stmt]) (Stmt.loops result) := by
  cases stmt with
  | forIn span target iter body orelse index =>
      obtain ⟨hself, hbodies⟩ := List.forall_mem_cons.mp hexprs
      obtain ⟨hbody, horelse⟩ := List.forall_mem_append.mp hbodies
      obtain ⟨htarget, hrest⟩ := List.forall_mem_cons.mp hself
      obtain ⟨hiter, hindex⟩ := List.forall_mem_cons.mp hrest
      obtain ⟨hstmt, hinner⟩ := List.forall_mem_cons.mp hstmts
      obtain ⟨hbodyStmts, horelseStmts⟩ := List.forall_mem_append.mp hinner
      have hcouples := hthreads.judgement_retains.coupling
      obtain ⟨target', _, htarget', hrun⟩ := hthreads.bind.mp hrun
      obtain ⟨iter', _, hiter', hrun⟩ := hthreads.bind.mp hrun
      obtain ⟨index', _, hindex', hrun⟩ := hthreads.bind.mp hrun
      obtain ⟨hfirst, htarget⟩ := htarget _ _ _ htarget'
      obtain ⟨hsecond, hiter⟩ := hiter _ _ _ hiter'
      obtain ⟨hthird, hindex⟩ := hcouples.rebuildPartM (g := f) hindex _ _ _ hindex'
      obtain ⟨hlast, hloops⟩ := hthreads.loops_rebuildBodies (R := R) hmono rfl (fun _ _ => rfl)
        (fun _ _ hempty => .forIn htarget hiter hindex hempty) hstmt
        (fun h => loops_rebuildBody hthreads hmono hbody hbodyStmts h)
        (fun h => loops_rebuildBody hthreads hmono horelse horelseStmts h) hrun
      exact ⟨List.Subset.trans hfirst (List.Subset.trans hsecond
        (List.Subset.trans hthird hlast)), hloops⟩
  | whileLoop span test body orelse =>
      obtain ⟨hself, hbodies⟩ := List.forall_mem_cons.mp hexprs
      obtain ⟨hbody, horelse⟩ := List.forall_mem_append.mp hbodies
      obtain ⟨hstmt, hinner⟩ := List.forall_mem_cons.mp hstmts
      obtain ⟨hbodyStmts, horelseStmts⟩ := List.forall_mem_append.mp hinner
      obtain ⟨test', _, htest', hrun⟩ := hthreads.bind.mp hrun
      obtain ⟨hfirst, htest⟩ := hself test List.mem_cons_self _ _ _ htest'
      obtain ⟨hlast, hloops⟩ := hthreads.loops_rebuildBodies (R := R) hmono rfl (fun _ _ => rfl)
        (fun _ _ hempty => .whileLoop htest hempty) hstmt
        (fun h => loops_rebuildBody hthreads hmono hbody hbodyStmts h)
        (fun h => loops_rebuildBody hthreads hmono horelse horelseStmts h) hrun
      exact ⟨List.Subset.trans hfirst hlast, hloops⟩
  | branch span test body orelse =>
      obtain ⟨hself, hbodies⟩ := List.forall_mem_cons.mp hexprs
      obtain ⟨hbody, horelse⟩ := List.forall_mem_append.mp hbodies
      obtain ⟨hstmt, hinner⟩ := List.forall_mem_cons.mp hstmts
      obtain ⟨hbodyStmts, horelseStmts⟩ := List.forall_mem_append.mp hinner
      obtain ⟨test', _, htest', hrun⟩ := hthreads.bind.mp hrun
      obtain ⟨hfirst, htest⟩ := hself test List.mem_cons_self _ _ _ htest'
      obtain ⟨hlast, hloops⟩ := hthreads.loops_rebuildBodies (R := R) hmono rfl (fun _ _ => rfl)
        (fun _ _ _ => .branch htest) hstmt
        (fun h => loops_rebuildBody hthreads hmono hbody hbodyStmts h)
        (fun h => loops_rebuildBody hthreads hmono horelse horelseStmts h) hrun
      exact ⟨List.Subset.trans hfirst hlast, hloops⟩
  | _ =>
      obtain ⟨hgrown, hloops⟩ := hthreads.loops_rebuildSimple rfl hexprs hstmts _ _ _ hrun
      rw [hloops]
      exact ⟨hgrown, .nil⟩
termination_by structural stmt

/-- The loops of a body become those of what it is rebuilt as. -/
theorem loops_rebuildBody (hthreads : Threads Runs)
    (hmono : ∀ {temps later loop loop'}, temps ⊆ later → R temps loop loop' → R later loop loop')
    {body : List Stmt} {before after : List TempDecl} {result : List Stmt}
    (hexprs : ∀ inner ∈ Stmt.nestedBody body, ∀ e ∈ inner.exprs,
      Retains Runs _ (e.rebuildM f) (Rel e))
    (hstmts : ∀ inner ∈ Stmt.nestedBody body, ∀ rebuilt, inner.Reshaped Rel rebuilt →
      ∀ before result after, Runs (g rebuilt) before result after →
        before ⊆ after ∧ Follows R after inner rebuilt result)
    (hrun : Runs (Stmt.rebuildBodyM f g body) before result after) :
    before ⊆ after ∧ List.Forall₂ (R after) (Stmt.loops body) (Stmt.loops result) := by
  cases body with
  | nil =>
      obtain ⟨rfl, rfl⟩ := hthreads.pure.mp hrun
      exact ⟨List.Subset.refl _, .nil⟩
  | cons stmt body =>
      obtain ⟨hstmt, hbody⟩ := List.forall_mem_append.mp hexprs
      obtain ⟨hstmtStmts, hbodyStmts⟩ := List.forall_mem_append.mp hstmts
      obtain ⟨stmts, middle, hfirst, hrun⟩ := hthreads.bind.mp hrun
      obtain ⟨rest, last, hsecond, hrun⟩ := hthreads.bind.mp hrun
      obtain ⟨rfl, rfl⟩ := hthreads.pure.mp hrun
      obtain ⟨hgrown, hloops⟩ := loops_rebuildStmt hthreads hmono hstmt hstmtStmts hfirst
      obtain ⟨hgrown', hrest⟩ := loops_rebuildBody hthreads hmono hbody hbodyStmts hsecond
      rw [Stmt.loops_cons, Stmt.loops_append]
      refine ⟨List.Subset.trans hgrown hgrown', List.rel_append ?_ hrest⟩
      exact hloops.imp fun _ _ => hmono hgrown'
termination_by structural body

end

end Threads

/-! ## Counters -/

namespace Expr

/-- Whether an expression is a range with its three bounds. -/
def isRange : Expr → Bool
  | .range _ _ _ _ => true
  | _ => false

/-- What a loop may count in: a plain name, or a temporary that was made for it. -/
def IsCounter (index : Ty) (temps : List TempDecl) : Expr → Prop
  | .name _ _ access => access = .load
  | .temp _ id access => access = .load ∧ ⟨id, index, .index⟩ ∈ temps
  | _ => False

instance (index : Ty) (temps : List TempDecl) : DecidablePred (IsCounter index temps) := fun
  | .name _ _ access => inferInstanceAs (Decidable (access = .load))
  | .temp _ id access =>
      inferInstanceAs (Decidable (access = .load ∧ ⟨id, index, .index⟩ ∈ temps))
  | .const _ _ | .ellipsis _ | .binOp _ _ _ _ | .boolOp _ _ _ | .unaryOp _ _ _ | .compare _ _ _ _
  | .call _ _ _ _ | .attribute _ _ _ _ | .subscript _ _ _ _ | .index _ _ | .slice _ _ _ _
  | .extSlice _ _ | .tuple _ _ _ | .list _ _ _ | .dict _ _ _ | .coercion _ _ _
  | .deferredCoercion _ _ _ | .range _ _ _ _ | .nativeCall _ _ _ _ | .objectCall _ _ _ _
  | .arrayAttribute _ _ _ _ | .dataPointer _ _ | .objectTemp _ _ _ => isFalse id

@[simp] theorem isRange_withChildren (e : Expr) (parts : List Expr) :
    (e.withChildren parts).isRange = e.isRange := by
  unfold withChildren
  split <;> rfl

theorem ty_withAccess (e : Expr) (access : Access) : (e.withAccess access).ty = e.ty := by
  cases e <;> rfl

theorem isCounter_withAccess {e : Expr} (hname : e.asName.isSome) (index : Ty)
    (temps : List TempDecl) : (e.withAccess .load).IsCounter index temps := by
  obtain ⟨name, hname⟩ := Option.isSome_iff_exists.mp hname
  obtain ⟨note, access, rfl⟩ := eq_name_of_asName hname
  rfl

theorem IsCounter.mono {e : Expr} {index : Ty} {temps later : List TempDecl}
    (hcounter : e.IsCounter index temps) (hgrown : temps ⊆ later) : e.IsCounter index later := by
  cases e with
  | name => exact hcounter
  | temp => exact ⟨hcounter.1, hgrown hcounter.2⟩
  | _ => exact hcounter.elim

end Expr

namespace Stmt

/-- A loop over something of the range type that has a counter. -/
def RunsOverRange (index : Ty) (temps : List TempDecl) : Stmt → Prop
  | .forIn _ _ iter _ _ (some counter) => iter.ty = some .range ∧ counter.IsCounter index temps
  | _ => False

/-- A counted loop: it runs over a range whose three bounds have the index type, and its counter has
this type, too. -/
def IsCounted (index : Ty) (temps : List TempDecl) : Stmt → Prop
  | .forIn _ _ (.range _ start stop step) _ _ (some counter) =>
      (∀ bound ∈ [start, stop, step], bound.ty = some index) ∧ counter.IsCounter index temps ∧
        counter.ty = some index
  | _ => False

/-- If a loop runs over a range, then it is one that is written out, and the target has the index
type. -/
def CountsInTarget (index : Ty) : Stmt → Prop
  | .forIn _ target iter _ _ _ => iter.ty = some .range → iter.isRange ∧ target.ty = some index
  | _ => False

/-- A bound of the range that a loop runs over is a tuple that was packed. This needs tuples for an
index type. -/
def PacksBound (index : Ty) : Stmt → Prop
  | .forIn _ _ (.range _ start stop step) _ _ _ =>
      ∃ bound ∈ [start, stop, step], bound.PackedInto (some index)
  | _ => False

variable {index : Ty} {temps : List TempDecl} {span : Span} {target iter counter : Expr}
  {body orelse : List Stmt}

theorem isCounted_iff :
    (Stmt.forIn span target iter body orelse (some counter)).IsCounted index temps ↔
      iter.isRange ∧ (∀ bound ∈ iter.children, bound.ty = some index) ∧
        counter.IsCounter index temps ∧ counter.ty = some index := by
  cases iter <;> simp [IsCounted, Expr.isRange, Expr.children]

instance : DecidablePred (IsCounted index temps) := fun
  | .forIn _ _ _ _ _ (some _) => decidable_of_iff' _ isCounted_iff
  | .forIn _ _ iter _ _ none => isFalse (by cases iter <;> exact id)
  | .assign _ _ _ | .augAssign _ _ _ _ | .whileLoop _ _ _ _ | .branch _ _ _ _ | .ret _ _
  | .expr _ _ | .print _ _ _ _ | .global _ _ | .pass _ | .break _ | .continue _ => isFalse id

theorem packsBound_iff {counter : Option Expr} :
    (Stmt.forIn span target iter body orelse counter).PacksBound index ↔
      iter.isRange ∧ ∃ bound ∈ iter.children, bound.PackedInto (some index) := by
  cases iter <;> simp [PacksBound, Expr.isRange, Expr.children]

end Stmt

/-! ## Counting -/

namespace Loops

/-- What becomes of a loop when it is counted. A loop over a range keeps its iterable and counts in
its target; a loop over an array counts in a temporary. -/
inductive LowersTo (table : SymbolTable) (indexType : Ty) (temps : List TempDecl) :
    Stmt → Stmt → Prop where
  | range {span : Span} {target iter : Expr} {body orelse body' orelse' : List Stmt}
      {index : Option Expr} (hiter : iter.ty = some .range) (hname : target.asName.isSome)
      (hbounds : iter.isRange → ∀ bound ∈ iter.children, bound.ty = some indexType) :
      LowersTo table indexType temps (.forIn span target iter body orelse index)
        (.forIn span target iter body' orelse' (some (target.withAccess .load)))
  | array {span : Span} {target iter array : Expr} {layout : Layout} {ty : Ty}
      {body orelse body' orelse' : List Stmt} {index : Option Expr} {id : TempId}
      (hiter : iter.ty = some (.array ty layout)) (hid : ⟨id, indexType, .index⟩ ∈ temps) :
      LowersTo table indexType temps (.forIn span target iter body orelse index)
        (.forIn span target (positions table indexType array span) body' orelse'
          (some (temp id .load indexType span)))

open Threads

variable {table : SymbolTable} {indexType : Ty} {span : Span} {target iter : Expr}
  {body orelse lowered : List Stmt} {index : Option Expr} {before after : List TempDecl}

theorem LowersTo.mono {temps later : List TempDecl} {loop loop' : Stmt} (hgrown : temps ⊆ later)
    (hlowers : LowersTo table indexType temps loop loop') :
    LowersTo table indexType later loop loop' := by
  cases hlowers with
  | range hiter hname hbounds => exact .range hiter hname hbounds
  | array hiter hid => exact .array hiter (hgrown hid)

theorem threads_reaches : Threads (m := Lowering) Pass.Reaches :=
  ⟨Pass.reaches_pure, Pass.reaches_bind⟩

/-- What a loop becomes is followed by the loops in its bodies. -/
theorem Counted.follows (hcounted : Counted table indexType span target iter body orelse before
      lowered after) (hname : target.asName.isSome)
    (hbounds : iter.isRange → ∀ bound ∈ iter.children, bound.ty = some indexType)
    (body' orelse' : List Stmt) (index' : Option Expr) :
    before ⊆ after ∧ Follows (LowersTo table indexType) after
      (.forIn span target iter body' orelse' index') (.forIn span target iter body orelse index)
      lowered := by
  have hoverArray (array : Expr) (ty : Ty) (id : TempId) :
      Stmt.loops [overArray table indexType span target array ty body orelse id] =
        overArray table indexType span target array ty body orelse id ::
          (Stmt.loops body ++ Stmt.loops orelse) :=
    Stmt.loops_forIn ..
  cases hcounted with
  | range hiter =>
      refine ⟨List.Subset.refl _, [.forIn span target iter body orelse
        (some (target.withAccess .load))], ?_, .cons ?_ .nil⟩
      · simp [Stmt.loops_forIn]
      · exact .range hiter hname hbounds
  | @named ty layout hiter =>
      refine ⟨List.subset_append_left _ _, [overArray table indexType span target iter ty body
        orelse ⟨before.length⟩], ?_, .cons ?_ .nil⟩
      · simp [hoverArray]
      · exact .array hiter (by simp)
  | @stored ty layout hiter =>
      refine ⟨List.subset_append_left _ _, [overArray table indexType span target
        (temp ⟨before.length⟩ .load (.array ty layout) iter.span) ty body orelse
        ⟨before.length + 1⟩], ?_, .cons ?_ .nil⟩
      · simp [hoverArray]
      · exact .array hiter (by simp)

/-- The loops of a body are counted one by one. -/
theorem loops_lowerBody
    (hbounds : ∀ stmt ∈ Stmt.nestedBody body, ∀ node ∈ stmt.nodes, node.Agrees indexType Expr.ty)
    (hlower : Pass.Reaches (lowerBody table indexType body) before lowered after) :
    List.Forall₂ (LowersTo table indexType after) (Stmt.loops body) (Stmt.loops lowered) := by
  have hexprs : ∀ inner ∈ Stmt.nestedBody body, ∀ e ∈ inner.exprs,
      Retains Pass.Reaches _ (e.rebuildM (pure : Expr → Lowering Expr)) (Eq e) := by
    intro inner _ e _
    rw [Expr.rebuildM_pure]
    exact threads_reaches.judgement_retains.pure rfl
  refine (threads_reaches.loops_rebuildBody (R := LowersTo table indexType) LowersTo.mono hexprs
    (fun inner hinner rebuilt hreshaped before result after hrun => ?_) hlower).2
  have hsame := hreshaped.isLoop_eq
  cases hreshaped with
  | @forIn span target _ iter _ body body' orelse orelse' index index' htarget hiter =>
      subst htarget hiter
      obtain ⟨hname, hcounted⟩ := counted_lowerLoop hrun
      refine hcounted.follows hname (fun hrange bound hbound => ?_) body orelse index
      have hiter : iter ∈ (Stmt.forIn span target iter body orelse index).nodes := by
        simp [Stmt.nodes, Stmt.exprs, Expr.nodesAll, iter.mem_nodes_self]
      have hagrees := hbounds _ hinner iter hiter
      cases iter with
      | range => exact hagrees bound hbound
      | _ => cases hrange
  | _ =>
      obtain ⟨rfl, rfl⟩ := Pass.reaches_pure.mp hrun
      exact ⟨List.Subset.refl _, follows_singleton hsame (by rintro ⟨⟩)⟩

end Loops

/-! ## Boxing -/

namespace Boxing

open Threads

/-- An expression when it is prepared for the backend: ranges stay ranges, and counters stay what
they are. -/
structure Keeps (table : SymbolTable) (e boxed : Expr) : Prop where
  boxes : Boxes table (fun _ => True) e boxed
  isRange : boxed.isRange = e.isRange
  bounds : e.isRange → List.Forall₂ (Boxes table fun _ => True) e.children boxed.children
  counter : ∀ {index temps}, e.IsCounter index temps → boxed = e

/-- What becomes of a loop in this pass. -/
inductive KeepsLoop (table : SymbolTable) : Stmt → Stmt → Prop where
  | intro {span : Span} {target target' iter iter' : Expr} {index index' : Option Expr}
      {body orelse body' orelse' : List Stmt} (hiter : Keeps table iter iter')
      (hindex : List.Forall₂ (Keeps table) index.toList index'.toList) :
      KeepsLoop table (.forIn span target iter body orelse index)
        (.forIn span target' iter' body' orelse' index')

/-- The runs of this pass. -/
abbrev Runs {α : Type} (step : Step α) (before : List TempDecl) (value : α)
    (after : List TempDecl) : Prop :=
  step.run before = .ok (value, after)

variable {table : SymbolTable} {e boxed : Expr} {before after : List TempDecl}

theorem threads_runs : Threads Runs := by
  refine ⟨?_, ?_⟩
  · intro α value result before after
    simp only [Runs, StateT.run_pure, Inference.pure_eq_ok, Prod.mk.injEq]
    exact and_congr eq_comm eq_comm
  · intro α β first next result before after
    simp [Runs, Inference.bind_eq_ok]

theorem retains_own (node : Expr) :
    Retains Runs _ (own node) fun owned => owned.isRange = false := by
  intro before owned after hrun
  cases hrun
  exact ⟨List.subset_append_left _ _, rfl⟩

theorem retains_lift {α : Type} {outcome : Except TypeError α} {good : α → Prop}
    (hgood : Ensures α outcome good) : Retains Runs _ (StateT.lift outcome) good := by
  intro before value after hrun
  simp only [Runs, StateT.run_lift, Inference.bind_eq_ok, Inference.pure_eq_ok,
    Prod.mk.injEq] at hrun
  obtain ⟨_, houtcome, rfl, rfl⟩ := hrun
  exact ⟨List.Subset.refl _, hgood _ houtcome⟩

theorem isRange_throughPointer {note : Note} {value selector : Expr} {access : Access} :
    Ensures _ (throughPointer note value selector access) fun result => result.isRange = false := by
  intro result hthrough
  unfold throughPointer at hthrough
  split at hthrough
  · split at hthrough
    · cases hthrough
    · cases hthrough
      rfl
  · cases hthrough
    rfl
  · cases hthrough
    rfl

/-- Ranges stay ranges, and nothing else becomes one. -/
theorem retains_boxExpr (hsettled : e.isDeferred = false) :
    Retains Runs _ (boxExpr table e) fun boxed => boxed.isRange = e.isRange := by
  have hkept : Retains Runs _ (pure e : Step Expr) fun boxed => boxed.isRange = e.isRange :=
    threads_runs.judgement_retains.pure rfl
  cases e with
  | deferredCoercion => cases hsettled
  | tuple note elts access =>
      cases access with
      | load =>
          simp only [boxExpr]
          split
          · exact retains_own _
          · exact retains_own _
      | store => exact hkept
  | dict => exact retains_own _
  | objectCall => exact retains_own _
  | nativeCall note symbol signature args =>
      simp only [boxExpr]
      split
      · exact retains_own _
      · exact hkept
  | subscript => exact retains_lift isRange_throughPointer
  | _ => exact hkept

theorem retains_rebuildM (he : AllFixed table (fun _ => True) e.nodes) :
    Retains Runs _ (e.rebuildM (boxExpr table)) fun boxed => boxed.isRange = e.isRange := by
  have hnodes : ∀ node ∈ e.nodes, ∀ parts,
      List.Forall₂ (fun e boxed : Expr => boxed.isRange = e.isRange) node.children parts →
        Retains Runs _ (boxExpr table (node.withChildren parts))
          fun boxed => boxed.isRange = node.isRange := by
    intro node hnode parts _
    have hboxed : Retains Runs _ (boxExpr table (node.withChildren parts)) fun boxed =>
        boxed.isRange = (node.withChildren parts).isRange :=
      retains_boxExpr (by simpa using (he node hnode).settled)
    simpa using hboxed
  exact threads_runs.judgement_retains.rebuildM hnodes

/-- The bounds of a range are prepared one by one. -/
theorem boxes_bounds {note : Note} {start stop step : Expr}
    (he : AllFixed table (fun _ => True) (Expr.range note start stop step).nodes)
    (hrun : Runs ((Expr.range note start stop step).rebuildM (boxExpr table)) before boxed after) :
    List.Forall₂ (Boxes table fun _ => True) [start, stop, step] boxed.children := by
  simp only [Expr.nodes, allFixed_cons, allFixed_append] at he
  obtain ⟨_, ⟨hstart, hstop⟩, hstep⟩ := he
  have hdoubles {temps : List TempDecl} : TempDoubles (fun _ => True) temps :=
    fun _ _ => doublesIn_true
  simp only [Expr.rebuildM, threads_runs.bind] at hrun
  obtain ⟨start', _, hstart', stop', _, hstop', step', _, hstep', hrun⟩ := hrun
  obtain ⟨rfl, rfl⟩ := threads_runs.pure.mp hrun
  exact .cons (boxes_rebuildM hstart _ _ _ hdoubles hstart').2
    (.cons (boxes_rebuildM hstop _ _ _ hdoubles hstop').2
      (.cons (boxes_rebuildM hstep _ _ _ hdoubles hstep').2 .nil))

theorem keeps_rebuildM (he : AllFixed table (fun _ => True) e.nodes) :
    Retains Runs _ (e.rebuildM (boxExpr table)) (Keeps table e) := by
  intro before boxed after hrun
  obtain ⟨hgrown, hsame⟩ := retains_rebuildM he before boxed after hrun
  have hboxes := (boxes_rebuildM he before boxed after (fun _ _ => doublesIn_true) hrun).2
  refine ⟨hgrown, hboxes, hsame, fun hrange => ?_, fun hcounter => ?_⟩
  · cases e with
    | range => exact boxes_bounds he hrun
    | _ => cases hrange
  · cases e with
    | name | temp => exact (threads_runs.pure.mp hrun).1
    | _ => exact hcounter.elim

/-- The loops of a body stay one by one. -/
theorem loops_boxBody {body boxed : List Stmt}
    (hbody : ∀ stmt ∈ Stmt.nestedBody body, AllFixed table (fun _ => True) stmt.nodes)
    (hbox : Runs (boxBody table body) before boxed after) :
    before ⊆ after ∧
      List.Forall₂ (KeepsLoop table) (Stmt.loops body) (Stmt.loops boxed) := by
  have hexprs : ∀ inner ∈ Stmt.nestedBody body, ∀ e ∈ inner.exprs,
      Retains Runs _ (e.rebuildM (boxExpr table)) (Keeps table e) :=
    fun inner hinner e he => keeps_rebuildM (allFixed_nodesAll.mp (hbody inner hinner) e he)
  refine threads_runs.loops_rebuildBody (R := fun _ => KeepsLoop table) (fun _ => id) hexprs
    (fun inner _ rebuilt hreshaped before result after hrun => ?_) hbox
  have hsame := hreshaped.isLoop_eq
  cases hreshaped with
  | forIn _ hiter hindex =>
      obtain ⟨rfl, rfl⟩ := threads_runs.pure.mp hrun
      exact ⟨List.Subset.refl _, follows_singleton hsame fun _ => .intro hiter hindex⟩
  | @print span values values' dest dest' newline =>
      cases dest' with
      | some => cases hrun
      | none =>
          obtain ⟨rfl, rfl⟩ := threads_runs.pure.mp hrun
          refine ⟨List.Subset.refl _, [], ?_, .nil⟩
          rw [Stmt.loops, nestedBody_printCalls]
          exact List.filter_eq_nil_iff.mpr (List.forall_mem_map.mpr fun _ _ => Bool.false_ne_true)
  | _ =>
      obtain ⟨rfl, rfl⟩ := threads_runs.pure.mp hrun
      exact ⟨List.Subset.refl _, follows_singleton hsame (by rintro ⟨⟩)⟩

/-- The bounds of a range in the index type keep this type exactly if none of them is packed. -/
theorem forall_ty_iff {index : Ty} {bounds boxed : List Expr}
    (hboxes : List.Forall₂ (Boxes table fun _ => True) bounds boxed)
    (hbounds : ∀ bound ∈ bounds, bound.ty = some index) :
    (∀ bound ∈ boxed, bound.ty = some index) ↔
      ¬ ∃ bound ∈ boxed, bound.PackedInto (some index) := by
  constructor
  · rintro hty ⟨bound, hbound, hpacked⟩
    exact hpacked.ty_ne (hty bound hbound)
  · intro hnone
    have heither : ∀ bound ∈ boxed, bound.ty = some index ∨ bound.PackedInto (some index) := by
      refine forall_of_forall₂ (fun bound hbound bound' hboxes => ?_) hboxes
      rw [← hbounds bound hbound]
      exact hboxes.ty.imp_right And.right
    exact fun bound hbound => (heither bound hbound).resolve_right fun hpacked =>
      hnone ⟨bound, hbound, hpacked⟩

theorem isReadTuple_convert {ty : Ty} (htuple : e.isReadTuple = false) :
    (e.convert table ty).isReadTuple = false := by
  unfold Expr.convert
  split
  · exact htuple
  · rfl

/-- The bounds of the positions of an array keep the index type. -/
theorem ty_positions {index : Ty} {array : Expr} {span : Span} {bounds : List Expr}
    (hboxes : List.Forall₂ (Boxes table fun _ => True)
      (Loops.positions table index array span).children bounds) :
    ∀ bound ∈ bounds, bound.ty = some index := by
  have hlength : (Loops.arrayLength array span).IsAnnotated table :=
    ⟨.intp, .typed .intp, rfl, rfl, rfl⟩
  have hpositions : ∀ bound ∈ (Loops.positions table index array span).children,
      bound.ty = some index ∧ bound.isReadTuple = false := by
    simp only [Loops.positions, Expr.children, List.forall_mem_cons, List.not_mem_nil,
      false_imp_iff, implies_true, and_true]
    exact ⟨⟨rfl, rfl⟩, ⟨ty_convert hlength, isReadTuple_convert rfl⟩, rfl, rfl⟩
  refine forall_of_forall₂ (fun bound hbound bound' hboxes => ?_) hboxes
  obtain ⟨hty, htuple⟩ := hpositions bound hbound
  rw [← hty]
  refine hboxes.ty.resolve_right ?_
  rintro ⟨hread, _⟩
  rw [htuple] at hread
  cases hread

/-- An iterable of the range type keeps this type. -/
theorem Keeps.ty_of_range (hkeeps : Keeps table e boxed) (he : e.ty = some .range) :
    boxed.ty = some .range := by
  rw [← he]
  refine hkeeps.boxes.ty.resolve_right ?_
  rintro ⟨_, _, _, _, _, _, hty, _⟩
  rw [he] at hty
  cases hty

/-- A counter stays what it is. -/
theorem eq_some_of_counter {counter : Expr} {index' : Option Expr} {index : Ty}
    {temps : List TempDecl} (hcounter : counter.IsCounter index temps)
    (hindex : List.Forall₂ (Keeps table) (some counter).toList index'.toList) :
    index' = some counter := by
  cases index' with
  | none => cases hindex
  | some counter' =>
      obtain ⟨hkeeps, _⟩ := List.forall₂_cons.mp hindex
      rw [hkeeps.counter hcounter]

/-- What a loop with fixed types has become in the end. -/
theorem isCounted_iff_countsInTarget {indexType : Ty} {temps later : List TempDecl}
    {loop counted boxed : Stmt} (hgrown : temps ⊆ later)
    (hlowers : Loops.LowersTo table indexType temps loop counted)
    (hkeeps : KeepsLoop table counted boxed) :
    boxed.RunsOverRange indexType later ∧
      (boxed.IsCounted indexType later ↔
        loop.CountsInTarget indexType ∧ ¬ boxed.PacksBound indexType) := by
  cases hlowers with
  | @range span target iter body orelse body' orelse' index hiter hname hbounds =>
      obtain ⟨hkeepsIter, hindex⟩ := hkeeps
      have hcounter := Expr.isCounter_withAccess hname indexType later
      obtain rfl := eq_some_of_counter hcounter hindex
      refine ⟨⟨hkeepsIter.ty_of_range hiter, hcounter⟩, ?_⟩
      have hty : (target.withAccess .load).ty = target.ty := Expr.ty_withAccess target .load
      rw [Stmt.isCounted_iff, Stmt.packsBound_iff, hkeepsIter.isRange, hty]
      constructor
      · rintro ⟨hrange, htys, -, htarget⟩
        refine ⟨fun _ => ⟨hrange, htarget⟩, fun hpacks => ?_⟩
        exact (forall_ty_iff (hkeepsIter.bounds hrange) (hbounds hrange)).mp htys hpacks.2
      · rintro ⟨hloop, hnone⟩
        obtain ⟨hrange, htarget⟩ := hloop hiter
        refine ⟨hrange, ?_, hcounter, htarget⟩
        exact (forall_ty_iff (hkeepsIter.bounds hrange) (hbounds hrange)).mpr
          fun hpacks => hnone ⟨hrange, hpacks⟩
  | @array span target iter array layout ty body orelse body' orelse' index id hiter hid =>
      obtain ⟨hkeepsIter, hindex⟩ := hkeeps
      have hcounter : (Loops.temp id .load indexType span).IsCounter indexType later :=
        ⟨rfl, hgrown hid⟩
      obtain rfl := eq_some_of_counter hcounter hindex
      refine ⟨⟨hkeepsIter.ty_of_range rfl, hcounter⟩, ?_⟩
      rw [Stmt.isCounted_iff, Stmt.packsBound_iff, hkeepsIter.isRange]
      have hbounds := ty_positions (hkeepsIter.bounds rfl)
      refine iff_of_true ⟨rfl, hbounds, hcounter, rfl⟩ ⟨fun hrange => ?_, ?_⟩
      · rw [hiter] at hrange
        cases hrange
      · rintro ⟨-, bound, hbound, hpacked⟩
        exact hpacked.ty_ne (hbounds bound hbound)

end Boxing

/-! ## Compiled functions -/

theorem forall₂_comp {α β γ : Type} {First : α → β → Prop} {Second : β → γ → Prop}
    {Both : α → γ → Prop} (hcomp : ∀ a b c, First a b → Second b c → Both a c) {as : List α}
    {bs : List β} {cs : List γ} (hfirst : List.Forall₂ First as bs)
    (hsecond : List.Forall₂ Second bs cs) : List.Forall₂ Both as cs := by
  induction hfirst generalizing cs with
  | nil =>
      obtain rfl := List.forall₂_nil_left_iff.mp hsecond
      exact .nil
  | cons hhead _ ih =>
      obtain ⟨c, cs, hhead', htail, rfl⟩ := List.forall₂_cons_left_iff.mp hsecond
      exact .cons (hcomp _ _ _ hhead hhead') (ih htail)

/-- Every loop of a function of the source comes out as a loop over something of the range type that
counts in a plain name or in a temporary of its own, and it is a counted loop in the index type
exactly if it runs over an array, or over a range that is written out, by a target of the index
type, and no bound of this range is packed. -/
theorem FunctionDef.isCounted_compile_iff {setting : Inference.Setting} {func : FunctionDef}
    {signature : Signature} {compiled : Compiled} (hsource : func.IsSource)
    (hcompile : Pass.Succeeds (func.compile setting signature) compiled) :
    ∃ inferred typed, Pass.Succeeds (Inference.inferFunction setting func signature) inferred ∧
      Pass.Succeeds (inferred.func.typed inferred.symbols) typed ∧
      List.Forall₂ (fun loop counted =>
        counted.RunsOverRange setting.options.indexType compiled.func.temps ∧
          (counted.IsCounted setting.options.indexType compiled.func.temps ↔
            loop.CountsInTarget setting.options.indexType ∧
              ¬ counted.PacksBound setting.options.indexType))
        typed.loops compiled.func.loops := by
  simp only [compile, Pass.succeeds_bind, Pass.succeeds_pure] at hcompile
  obtain ⟨_, _, inferred, hinfer, typed, htyped, counted, hcounted, boxed, hboxed, _, _, rfl⟩ :=
    hcompile
  refine ⟨inferred, typed, hinfer, htyped, ?_⟩
  have hsound := (sound_typed (fun stmt hstmt => (hsource.statements stmt hstmt).uncounted) hinfer
    htyped).1
  have hfixed := (fixed_typed hsource hinfer (done_of_isSource hsource hinfer) htyped).1
  have hfixed := (fixed_counted doublesIn_true hfixed (fun _ _ => doublesIn_true) hcounted).1
  simp only [FunctionDef.counted, Pass.succeeds_bind, Pass.succeeds_pure] at hcounted
  obtain ⟨⟨body, temps⟩, hlower, _, _, rfl⟩ := hcounted
  simp only [FunctionDef.boxed, Pass.succeeds_bind, Pass.succeeds_ofExcept, Pass.succeeds_pure,
    box, Inference.bind_eq_ok, Inference.pure_eq_ok, Prod.exists] at hboxed
  obtain ⟨_, ⟨body', temps', hbox, rfl⟩, _, _, rfl⟩ := hboxed
  have hlowers := Loops.loops_lowerBody
    (fun stmt hstmt node hnode => ((hsound stmt hstmt).1 node hnode).2) hlower
  obtain ⟨hgrown, hkeeps⟩ := Boxing.loops_boxBody (fun stmt hstmt => (hfixed stmt hstmt).nodes) hbox
  refine forall₂_comp (fun loop counted boxed hlowers hkeeps => ?_) hlowers hkeeps
  exact Boxing.isCounted_iff_countsInTarget hgrown hlowers hkeeps

/-- A loop over an array with a loop over a range in it, and a loop over a range that was stored
before: `for x in xs: for i in range(n): print x`, then `r = range(n)` and
`if n: for j in r: print j`. -/
def tallying : FunctionDef :=
  open Builder in
  function "tallying" ["xs", "n"]
    [forIn (store "x") (load "xs")
        [forIn (store "i") (call (load "range") [load "n"]) [print [load "x"]]],
      assign (store "r") (call (load "range") [load "n"]),
      branch (load "n") [forIn (store "j") (load "r") [print [load "j"]]] []]

theorem isCounted_compile_iff_tallying : ∃ compiled, tallying.IsSource ∧
    Pass.Succeeds (tallying.compile builtinsOnly { args := [.strided .float64 1, .int64] })
      compiled ∧
    (compiled.func.loops.map fun loop =>
      decide (loop.IsCounted .int64 compiled.func.temps)) = [true, true, false] ∧
    ∃ inferred typed, Pass.Succeeds (Inference.inferFunction builtinsOnly tallying
        { args := [.strided .float64 1, .int64] }) inferred ∧
      Pass.Succeeds (inferred.func.typed inferred.symbols) typed ∧
      List.Forall₂ (fun loop counted =>
        counted.RunsOverRange .int64 compiled.func.temps ∧
          (counted.IsCounted .int64 compiled.func.temps ↔
            loop.CountsInTarget .int64 ∧ ¬ counted.PacksBound .int64))
        typed.loops compiled.func.loops := by
  have hsource : tallying.IsSource := by decide +kernel
  obtain ⟨compiled, hcompile, htest⟩ : ∃ compiled,
      Pass.Succeeds (tallying.compile builtinsOnly { args := [.strided .float64 1, .int64] })
        compiled ∧
      decide ((compiled.func.loops.map fun loop =>
        decide (loop.IsCounted .int64 compiled.func.temps)) = [true, true, false]) = true :=
    Pass.exists_succeeds (fun _ _ => .host) (by decide +kernel)
  exact ⟨compiled, hsource, hcompile, of_decide_eq_true htest,
    FunctionDef.isCounted_compile_iff hsource hcompile⟩

/-- `x = 1.5`, then `for x in range(n): print x`: a target that already has another type. -/
def drifting : FunctionDef :=
  open Builder in
  function "f" ["n"]
    [assign (store "x") (float ⟨0x3ff8000000000000⟩),
      forIn (store "x") (call (load "range") [load "n"]) [print [load "x"]]]

/-- A compilation that leaves a loop uncounted. -/
theorem not_forall_isCounted {setting : Inference.Setting} {func : FunctionDef}
    {signature : Signature} {index : Ty}
    (hrun : ∃ compiled, Pass.Succeeds (func.compile setting signature) compiled ∧
      decide (∃ loop ∈ compiled.func.loops, ¬ loop.IsCounted index compiled.func.temps) = true) :
    ¬ ∀ compiled, Pass.Succeeds (func.compile setting signature) compiled →
      ∀ loop ∈ compiled.func.loops, loop.IsCounted index compiled.func.temps := by
  intro hall
  obtain ⟨compiled, hcompile, htest⟩ := hrun
  obtain ⟨loop, hloop, huncounted⟩ := of_decide_eq_true htest
  exact huncounted (hall compiled hcompile loop hloop)

/-- The counter of the only loop of `drifting` is a floating-point number, and `tallying` keeps a
loop over a variable. -/
theorem drifting_uncounted :
    (drifting.IsSource ∧
      ¬ ∀ compiled, Pass.Succeeds (drifting.compile builtinsOnly { args := [.int64] }) compiled →
        ∀ loop ∈ compiled.func.loops, loop.IsCounted .int64 compiled.func.temps) ∧
    tallying.IsSource ∧
      ¬ ∀ compiled, Pass.Succeeds (tallying.compile builtinsOnly
          { args := [.strided .float64 1, .int64] }) compiled →
        ∀ loop ∈ compiled.func.loops, loop.IsCounted .int64 compiled.func.temps :=
  ⟨⟨by decide +kernel, not_forall_isCounted
      (Pass.exists_succeeds (fun _ _ => .host) (by decide +kernel))⟩,
    by decide +kernel, not_forall_isCounted
      (Pass.exists_succeeds (fun _ _ => .host) (by decide +kernel))⟩

end KernelFront
