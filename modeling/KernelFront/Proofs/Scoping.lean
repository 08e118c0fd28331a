import KernelFront.Proofs.Inference.Iterables

/-! # The temporaries of loops

A loop over an array has temporaries of its own: one for its counter and, unless the array is a
plain name, one that the array is stored in by the statement before the loop. They are used in the
header of the loop and by the statement that stores the element, and nowhere else in the function,
however deep the loops, branches and bodies are nested and whatever is boxed later on.
-/

namespace KernelFront

/-! ## Uses -/

/-- The temporary that a node is, and whether it is read or written. -/
def Expr.tempUse? : Expr → Option (TempId × Access)
  | .temp _ id access => some (id, access)
  | _ => none

/-- The uses of temporaries among some nodes. -/
def tempUses (nodes : List Expr) : List (TempId × Access) := nodes.filterMap Expr.tempUse?

/-- The uses of temporaries in a body at every depth. -/
def Stmt.tempUses (body : List Stmt) : List (TempId × Access) :=
  KernelFront.tempUses ((nestedBody body).flatMap Stmt.nodes)

/-- How the temporaries of loops are used. A counter is read by the loop and to select the element;
an array is stored once, and read for the range and for the element. The temporaries that own boxed
values are not used by such nodes at all. -/
def TempDecl.uses (decl : TempDecl) : List (TempId × Access) :=
  match decl.kind with
  | .index => [(decl.id, .load), (decl.id, .load)]
  | .array => [(decl.id, .store), (decl.id, .load), (decl.id, .load)]
  | .object => []

theorem TempDecl.mem_uses {decl : TempDecl} {use : TempId × Access} (huse : use ∈ decl.uses) :
    use.1 = decl.id ∧ decl.kind ≠ .object := by
  unfold uses at huse
  split at huse
  next hkind => exact ⟨by simp_all, by simp [hkind]⟩
  next hkind =>
    simp only [List.mem_cons, List.not_mem_nil, or_false] at huse
    rcases huse with rfl | rfl | rfl <;> exact ⟨rfl, by simp [hkind]⟩
  next => cases huse

/-- Temporaries with different numbers are told apart by their uses. -/
theorem filter_uses {temps : List TempDecl} (hnodup : (temps.map TempDecl.id).Nodup)
    {decl : TempDecl} (hdecl : decl ∈ temps) :
    (temps.flatMap TempDecl.uses).filter (fun use => use.1 = decl.id) = decl.uses := by
  have hown : decl.uses.filter (fun use => use.1 = decl.id) = decl.uses :=
    List.filter_eq_self.mpr fun use huse => decide_eq_true (TempDecl.mem_uses huse).1
  have hother {other : TempDecl} (hne : other.id ≠ decl.id) :
      other.uses.filter (fun use => use.1 = decl.id) = [] := by
    refine List.filter_eq_nil_iff.mpr fun use huse heq => hne ?_
    exact (TempDecl.mem_uses huse).1.symm.trans (of_decide_eq_true heq)
  induction temps with
  | nil => cases hdecl
  | cons first temps ih =>
      obtain ⟨hfirst, hrest⟩ := List.nodup_cons.mp hnodup
      rw [List.flatMap_cons, List.filter_append]
      rcases List.mem_cons.mp hdecl with rfl | hdecl
      · rw [hown, List.filter_flatMap, List.flatMap_eq_nil_iff.mpr, List.append_nil]
        intro other hmem
        refine hother fun heq => hfirst ?_
        rw [← heq]
        exact List.mem_map_of_mem hmem
      · rw [ih hrest hdecl, hother, List.nil_append]
        intro heq
        refine hfirst ?_
        rw [heq]
        exact List.mem_map_of_mem hdecl

@[simp] theorem tempUses_nil : tempUses [] = [] := rfl

@[simp] theorem tempUses_append (first second : List Expr) :
    tempUses (first ++ second) = tempUses first ++ tempUses second :=
  List.filterMap_append ..

@[simp] theorem tempUses_cons (node : Expr) (nodes : List Expr) :
    tempUses (node :: nodes) = node.tempUse?.toList ++ tempUses nodes := by
  rw [tempUses, List.filterMap_cons]
  cases node.tempUse? <;> rfl

theorem tempUses_eq_nil_iff {nodes : List Expr} : tempUses nodes = [] ↔ Untouched nodes := by
  refine List.filterMap_eq_nil_iff.trans (forall₂_congr fun node _ => ?_)
  cases node <;> simp [Expr.tempUse?, Expr.isTemp]

/-- An expression became one with the same uses of temporaries. -/
def KeepsUses (e other : Expr) : Prop := tempUses other.nodes = tempUses e.nodes

theorem KeepsUses.nodesAll {es others : List Expr} (hes : List.Forall₂ KeepsUses es others) :
    tempUses (Expr.nodesAll others) = tempUses (Expr.nodesAll es) := by
  induction hes with
  | nil => rfl
  | cons hfirst _ ih =>
      rw [Expr.nodesAll, Expr.nodesAll, tempUses_append, tempUses_append, ih]
      exact congrArg (· ++ _) hfirst

@[simp] theorem Expr.asName_withAccess (e : Expr) (access : Access) :
    (e.withAccess access).asName = e.asName := by
  cases e <;> rfl

theorem Expr.tempUse?_withChildren (e : Expr) (parts : List Expr) :
    (e.withChildren parts).tempUse? = e.tempUse? := by
  unfold withChildren
  split <;> rfl

theorem Stmt.tempUses_append (first second : List Stmt) :
    Stmt.tempUses (first ++ second) = Stmt.tempUses first ++ Stmt.tempUses second := by
  simp [Stmt.tempUses, Stmt.nestedBody_append]

theorem Stmt.tempUses_cons (stmt : Stmt) (body : List Stmt) :
    Stmt.tempUses (stmt :: body) = Stmt.tempUses [stmt] ++ Stmt.tempUses body :=
  Stmt.tempUses_append [stmt] body

/-- The uses in a statement itself, and then those in its bodies. -/
theorem Stmt.tempUses_singleton (stmt : Stmt) :
    Stmt.tempUses [stmt] =
      KernelFront.tempUses stmt.nodes ++ stmt.bodies.flatMap Stmt.tempUses := by
  cases stmt <;> simp [Stmt.tempUses, nestedBody, nested, bodies]

/-! ## Loops and the statements before them -/

namespace Stmt

mutual

/-- The loops in the bodies of a statement, each with the statement directly before it. -/
def ledWithin : Stmt → List (Option Stmt × Stmt)
  | .forIn _ _ _ body orelse _ | .whileLoop _ _ body orelse | .branch _ _ body orelse =>
      led none body ++ led none orelse
  | _ => []

/-- The loops of a body at every depth, each with the statement directly before it. -/
def led (previous : Option Stmt) : List Stmt → List (Option Stmt × Stmt)
  | [] => []
  | stmt :: body =>
      (if stmt.isLoop then [(previous, stmt)] else []) ++ stmt.ledWithin ++ led (some stmt) body

end

theorem led_append (previous : Option Stmt) (first second : List Stmt) :
    ∃ last, led previous (first ++ second) = led previous first ++ led last second := by
  induction first generalizing previous with
  | nil => exact ⟨previous, rfl⟩
  | cons stmt first ih =>
      obtain ⟨last, hlast⟩ := ih (some stmt)
      exact ⟨last, by simp only [List.cons_append, led, hlast, List.append_assoc]⟩

theorem ledWithin_eq (stmt : Stmt) : stmt.ledWithin = stmt.bodies.flatMap (led none) := by
  cases stmt <;> simp [ledWithin, bodies]

theorem led_singleton (previous : Option Stmt) (stmt : Stmt) :
    led previous [stmt] =
      (if stmt.isLoop then [(previous, stmt)] else []) ++ stmt.bodies.flatMap (led none) := by
  rw [led, led, ledWithin_eq, List.append_nil]

mutual

theorem map_snd_ledWithin (stmt : Stmt) : stmt.ledWithin.map Prod.snd = stmt.innerLoops := by
  cases stmt with
  | forIn _ _ _ body orelse | whileLoop _ _ body orelse | branch _ _ body orelse =>
      simp only [ledWithin, innerLoops, bodies, List.map_append, List.flatMap_cons,
        List.flatMap_nil, List.append_nil, map_snd_led none body, map_snd_led none orelse]
  | _ => rfl
termination_by structural stmt

/-- These are the loops of a body. -/
theorem map_snd_led (previous : Option Stmt) (body : List Stmt) :
    (led previous body).map Prod.snd = loops body := by
  cases body with
  | nil => rfl
  | cons stmt body =>
      rw [led, List.map_append, List.map_append, map_snd_ledWithin stmt, map_snd_led _ body,
        loops_cons, loops_singleton]
      cases stmt <;> simp [isLoop, List.filter_cons]
termination_by structural body

end

/-- The temporaries that the header of a loop reads. -/
def headerTemps : Stmt → List TempId
  | .forIn _ _ iter _ _ index =>
      (KernelFront.tempUses (iter.nodes ++ Expr.nodesAll index.toList)).map Prod.fst
  | _ => []

theorem headerTemps_of_isLoop {stmt : Stmt} (hstmt : stmt.isLoop = false) :
    stmt.headerTemps = [] := by
  cases stmt with
  | forIn => cases hstmt
  | _ => rfl

/-- The temporaries that are read in the headers of the loops of a body. -/
def loopTemps (body : List Stmt) : List TempId := (loops body).flatMap headerTemps

@[simp] theorem loopTemps_append (first second : List Stmt) :
    loopTemps (first ++ second) = loopTemps first ++ loopTemps second := by
  simp [loopTemps]

theorem loopTemps_singleton (stmt : Stmt) :
    loopTemps [stmt] = stmt.headerTemps ++ stmt.bodies.flatMap loopTemps := by
  unfold loopTemps
  rw [loops_singleton, innerLoops, List.flatMap_append, List.flatMap_assoc]
  cases stmt <;> simp [isLoop, headerTemps, List.filter_cons]

end Stmt

/-- The loops of a function at every depth, each with the statement directly before it. -/
def FunctionDef.ledLoops (func : FunctionDef) : List (Option Stmt × Stmt) :=
  Stmt.led none func.body

namespace Boxing

variable {table : SymbolTable} {e boxed : Expr} {before after : List TempDecl}

theorem runs_own {node : Expr} (hrun : Runs (own node) before boxed after) :
    tempUses boxed.nodes = tempUses node.nodes := by
  cases hrun
  rfl

theorem tempUses_throughPointer {note : Note} {value selector : Expr} {access : Access}
    (hthrough : throughPointer note value selector access = .ok boxed) :
    tempUses boxed.nodes = tempUses (Expr.subscript note value selector access).nodes := by
  unfold throughPointer at hthrough
  split at hthrough
  · split at hthrough
    · cases hthrough
    · cases hthrough
      rfl
  · cases hthrough
    rfl
  · cases hthrough
    rfl

/-- Preparing a node adds no use of a temporary. -/
theorem tempUses_boxExpr (hrun : Runs (boxExpr table e) before boxed after) :
    tempUses boxed.nodes = tempUses e.nodes := by
  cases e with
  | deferredCoercion note node slot =>
      simp only [boxExpr, Runs, StateT.run_lift, Inference.bind_eq_ok, Inference.pure_eq_ok,
        Prod.mk.injEq] at hrun
      obtain ⟨_, hresolve, rfl, rfl⟩ := hrun
      simp only [Expr.resolveDeferred] at hresolve
      split at hresolve
      · cases hresolve
        unfold Expr.convert
        split <;> rfl
      · cases hresolve
  | tuple note elts access =>
      cases access with
      | load =>
          simp only [boxExpr] at hrun
          split at hrun
          · exact (runs_own hrun).trans rfl
          · exact runs_own hrun
      | store =>
          cases hrun
          rfl
  | dict | objectCall => exact runs_own hrun
  | nativeCall =>
      simp only [boxExpr] at hrun
      split at hrun
      · exact runs_own hrun
      · cases hrun
        rfl
  | subscript note value selector access =>
      simp only [boxExpr, Runs, StateT.run_lift, Inference.bind_eq_ok, Inference.pure_eq_ok,
        Prod.mk.injEq] at hrun
      obtain ⟨_, hthrough, rfl, rfl⟩ := hrun
      exact tempUses_throughPointer hthrough
  | _ =>
      cases hrun
      rfl

/-- Preparing an expression adds no use of a temporary and removes none. -/
theorem keepsUses_rebuildM (e : Expr) :
    Upholds (fun _ => True) _ (e.rebuildM (boxExpr table)) (KeepsUses e) := by
  refine judgement_upholds.rebuildM fun node _ parts hparts before boxed after _ hrun =>
    ⟨trivial, (tempUses_boxExpr hrun).trans ?_⟩
  have hbelow := KeepsUses.nodesAll hparts
  rw [Expr.nodes_eq, Expr.nodes_eq node, Expr.children_withChildren hparts.length_eq.symm,
    tempUses_cons, tempUses_cons, Expr.tempUse?_withChildren, hbelow]

/-! ## Statements without bodies -/

theorem untouched_nodesAll {es : List Expr} :
    Untouched (Expr.nodesAll es) ↔ ∀ e ∈ es, Untouched e.nodes := by
  induction es with
  | nil => simp [Expr.nodesAll]
  | cons e es ih => simp only [Expr.nodesAll, untouched_append, ih, List.forall_mem_cons]

theorem untouched_printCall {span : Span} {value : Expr} (hvalue : Untouched value.nodes) :
    Untouched (printCall span value).nodes := by
  simp only [printCall, Stmt.nodes, Stmt.exprs, Host.Function.call, Expr.nodesAll, Expr.nodes,
    untouched_cons, untouched_append, untouched_nil, and_true, List.append_nil]
  exact ⟨rfl, hvalue, rfl, rfl⟩

/-- A simple statement without temporaries becomes such statements. -/
theorem plain_of_simple {stmt : Stmt} {boxed : List Stmt} (hsimple : stmt.bodies = [])
    (huntouched : Untouched stmt.nodes)
    (hrun : Runs (stmt.rebuildM (boxExpr table) boxStmt) before boxed after) :
    ∀ inner ∈ Stmt.nestedBody boxed, inner.isLoop = false ∧ Untouched inner.nodes := by
  have hself : stmt.nested = [stmt] := Stmt.nested_of_bodies hsimple
  have hwalk : Upholds (fun _ => True) _ (stmt.rebuildM (boxExpr table) boxStmt) fun result =>
      ∀ inner ∈ Stmt.nestedBody result, inner.isLoop = false ∧ Untouched inner.nodes := by
    refine judgement_upholds.coupling.rebuildStmt (g := boxExpr table) (k := boxStmt)
      (fun _ _ e _ => keepsUses_rebuildM e) fun inner hinner rebuilt hreshaped _ => ?_
    rw [hself, List.mem_singleton] at hinner
    subst hinner
    have hexprs : ∀ e ∈ rebuilt.exprs, Untouched e.nodes := by
      refine hreshaped.forall_exprs fun e he e' hkeeps => ?_
      rw [← tempUses_eq_nil_iff, hkeeps, tempUses_eq_nil_iff]
      exact untouched_nodesAll.mp huntouched e he
    have hloop : rebuilt.isLoop = false :=
      hreshaped.isLoop_eq.trans (Stmt.isLoop_of_bodies hsimple)
    have hnested : Stmt.nestedBody [rebuilt] = [rebuilt] := by
      rw [Stmt.nestedBody, Stmt.nestedBody, List.append_nil,
        Stmt.nested_of_bodies (hreshaped.bodies_eq_nil hsimple)]
    intro before result after _ hrun
    refine ⟨trivial, ?_⟩
    unfold boxStmt at hrun
    split at hrun
    · cases hrun
    · cases hrun
      rw [nestedBody_printCalls]
      refine List.forall_mem_map.mpr fun value hvalue => ⟨rfl, untouched_printCall ?_⟩
      exact hexprs value (List.mem_append_right _ hvalue)
    · cases hrun
      rw [hnested]
      exact List.forall_mem_singleton.mpr ⟨hloop, untouched_nodesAll.mpr hexprs⟩
  exact (hwalk before boxed after trivial hrun).2

/-! ## Loops over arrays -/

/-- An expression that this pass leaves as it is. -/
abbrev Kept (table : SymbolTable) (e : Expr) : Prop := e.rebuildM (boxExpr table) = pure e

theorem kept_of_asName (hname : e.asName.isSome) : Kept table e := by
  obtain ⟨name, hname⟩ := Option.isSome_iff_exists.mp hname
  obtain ⟨note, access, rfl⟩ := Expr.eq_name_of_asName hname
  rfl

theorem kept_temp (id : TempId) (access : Access) (ty : Ty) (span : Span) :
    Kept table (Loops.temp id access ty span) := rfl

variable {indexType elem : Ty} {span : Span} {target array : Expr} {id : TempId}

/-- A conversion is kept above an expression that may change without losing its type. -/
theorem rebuildM_convert {other : Expr} (he : e.rebuildM (boxExpr table) = pure other)
    (hnote : other.note = e.note) (ty : Ty) :
    (e.convert table ty).rebuildM (boxExpr table) = pure (other.convert table ty) := by
  have hty : other.typeIn? table = e.typeIn? table := by
    unfold Expr.typeIn? Expr.boundVar? Expr.binding Expr.ty
    rw [hnote]
  have hspan : other.span = e.span := congrArg Note.span hnote
  unfold Expr.convert
  rw [hty, hspan]
  split
  · exact he
  · rw [Expr.rebuildM, he]
    rfl

/-- The shape of an array is not read through the pointer to its elements. -/
theorem kept_positions (harray : Kept table array) :
    Kept table (Loops.positions table indexType array span) := by
  have hshape (note : Note) : (Expr.arrayAttribute note .shape array .load).rebuildM
      (boxExpr table) = pure (.arrayAttribute note .shape array .load) := by
    rw [Expr.rebuildM, harray]
    rfl
  have hlength : Kept table (Loops.arrayLength array span) := by
    rw [Kept, Loops.arrayLength, Expr.rebuildM, hshape]
    rfl
  have hbound := rebuildM_convert hlength rfl indexType
  rw [Kept, Loops.positions, Expr.rebuildM, hbound]
  rfl

/-- An array that is subscripted through the pointer to its elements. -/
structure IsBase (table : SymbolTable) (elem : Ty) (array : Expr) : Prop where
  kept : Kept table array
  ty : ∃ layout, array.ty = some (.array elem layout)
  form : ∀ note attr value access, array ≠ .arrayAttribute note attr value access

theorem isBase_of_asName {layout : Layout} (hname : array.asName.isSome)
    (hty : array.ty = some (.array elem layout)) : IsBase table elem array := by
  refine ⟨kept_of_asName hname, ⟨layout, hty⟩, ?_⟩
  rintro note attr value access rfl
  cases hname

theorem isBase_temp (id : TempId) (elem : Ty) (layout : Layout) (span : Span) :
    IsBase table elem (Loops.temp id .load (.array elem layout) span) :=
  ⟨kept_temp .., ⟨layout, rfl⟩, nofun⟩

/-- The pointer to the elements of an array. -/
def pointerTo (elem : Ty) (array : Expr) : Expr :=
  .dataPointer (.annotated array.span (.pointer elem)) array

/-- The counted loop over the elements of an array, which are read through a pointer. -/
def overPointer (table : SymbolTable) (indexType : Ty) (span : Span) (target array : Expr)
    (elem : Ty) (body orelse : List Stmt) (id : TempId) : Stmt :=
  let counter := Loops.temp id .load indexType span
  .forIn span target (Loops.positions table indexType array span)
    (Loops.storeElement table target (pointerTo elem array) counter elem span :: body) orelse
    (some counter)

theorem throughPointer_eq (harray : IsBase table elem array) (note : Note) (selector : Expr) :
    throughPointer note array selector .load =
      .ok (.subscript note (pointerTo elem array) selector .load) := by
  obtain ⟨layout, hty⟩ := harray.ty
  unfold throughPointer
  split
  · exact (harray.form _ _ _ _ rfl).elim
  · rename_i hother
    rw [hty, Option.some.injEq, Ty.array.injEq] at hother
    rw [← hother.1]
    rfl
  · rename_i hother
    exact absurd hty (hother _ _)

/-- The element is read through the pointer, and converted as before. -/
theorem rebuildM_storeElement (htarget : Kept table target) (harray : IsBase table elem array) :
    (Loops.storeElement table target array (Loops.temp id .load indexType span) elem
        span).rebuildM (boxExpr table) boxStmt =
      pure [Loops.storeElement table target (pointerTo elem array)
        (Loops.temp id .load indexType span) elem span] := by
  have harrayKept := harray.kept
  have htemp : Kept table (Loops.temp id .load indexType span) := kept_temp ..
  have helement : (Expr.subscript (.annotated span elem) array
      (Loops.temp id .load indexType span) .load).rebuildM (boxExpr table) =
        pure (.subscript (.annotated span elem) (pointerTo elem array)
          (Loops.temp id .load indexType span) .load) := by
    simp only [Expr.rebuildM, harrayKept, htemp, pure_bind, boxExpr, throughPointer_eq harray]
    rfl
  have hvalue := rebuildM_convert helement rfl (target.ty.getD .object)
  simp only [Loops.storeElement, Stmt.rebuildM, Expr.rebuildAllM, htarget, hvalue, pure_bind,
    boxStmt]

/-- What becomes of a loop over an array when its parts are prepared. -/
theorem runs_overArray {body orelse boxed : List Stmt} (htarget : Kept table target)
    (harray : IsBase table elem array)
    (hrun : Runs ((Loops.overArray table indexType span target array elem body orelse id).rebuildM
      (boxExpr table) boxStmt) before boxed after) :
    ∃ body' middle orelse', Runs (boxBody table body) before body' middle ∧
      Runs (boxBody table orelse) middle orelse' after ∧
      boxed = [overPointer table indexType span target array elem body' orelse' id] := by
  have hpositions : Kept table (Loops.positions table indexType array span) :=
    kept_positions harray.kept
  have htemp : Kept table (Loops.temp id .load indexType span) := kept_temp ..
  simp only [Loops.overArray, Stmt.rebuildM, Stmt.rebuildBodyM, Expr.rebuildPartM, htarget,
    hpositions, htemp, rebuildM_storeElement htarget harray, pure_bind, threads_runs.bind,
    threads_runs.pure, boxStmt] at hrun
  obtain ⟨_, middle, ⟨body', _, hbody, rfl, rfl⟩, orelse', _, horelse, rfl, rfl⟩ := hrun
  exact ⟨body', _, orelse', hbody, horelse, rfl⟩

/-! ## What becomes of a loop -/

/-- What a loop of the source has become, and what stands directly before it. A loop over a range
counts in its target. A loop over an array counts in a temporary of the index type, which also
selects the element that is stored at the head of its body. A plain name is read where the loop
stands; any other array is stored by the statement directly before the loop in a temporary that is
read in its place. -/
inductive ScopedLoop (table : SymbolTable) (indexType : Ty) (temps : List TempDecl) :
    Stmt → Option Stmt × Stmt → Prop where
  | range {span : Span} {target iter iter' : Expr} {body orelse body' orelse' : List Stmt}
      {index : Option Expr} {previous : Option Stmt} (hiter : iter.ty = some .range) :
      ScopedLoop table indexType temps (.forIn span target iter body orelse index)
        (previous, .forIn span target iter' body' orelse' (some (target.withAccess .load)))
  | named {span : Span} {target iter : Expr} {body orelse body' orelse' : List Stmt}
      {index : Option Expr} {previous : Option Stmt} {elem : Ty} {layout : Layout} {id : TempId}
      (hiter : iter.ty = some (.array elem layout)) (hname : iter.asName.isSome)
      (hindex : ⟨id, indexType, .index⟩ ∈ temps) :
      ScopedLoop table indexType temps (.forIn span target iter body orelse index)
        (previous, overPointer table indexType span target iter elem body' orelse' id)
  | stored {span : Span} {target iter iter' : Expr} {body orelse body' orelse' : List Stmt}
      {index : Option Expr} {elem : Ty} {layout : Layout} {id held : TempId}
      (hiter : iter.ty = some (.array elem layout)) (hname : iter.asName = none)
      (hindex : ⟨id, indexType, .index⟩ ∈ temps)
      (hheld : ⟨held, .array elem layout, .array⟩ ∈ temps) :
      ScopedLoop table indexType temps (.forIn span target iter body orelse index)
        (some (.assign iter.span [Loops.temp held .store (.array elem layout) iter.span] iter'),
          overPointer table indexType span target
            (Loops.temp held .load (.array elem layout) iter.span) elem body' orelse' id)

/-- Statements use these temporaries as they are meant to be used, and no others. -/
structure UsesMade (made : List TempDecl) (body : List Stmt) : Prop where
  kinds : ∀ decl ∈ made, decl.kind ≠ .object
  uses : (Stmt.tempUses body).Perm (made.flatMap TempDecl.uses)
  loops : (Stmt.loopTemps body).Perm (made.map TempDecl.id)

theorem UsesMade.nil {body : List Stmt} (huses : Stmt.tempUses body = [])
    (hloops : Stmt.loops body = []) : UsesMade [] body := by
  refine ⟨List.forall_mem_nil _, by rw [huses]; exact .nil, ?_⟩
  rw [Stmt.loopTemps, hloops]
  exact .nil

theorem UsesMade.append {made made' : List TempDecl} {body body' : List Stmt}
    (hfirst : UsesMade made body) (hsecond : UsesMade made' body') :
    UsesMade (made ++ made') (body ++ body') := by
  refine ⟨List.forall_mem_append.mpr ⟨hfirst.kinds, hsecond.kinds⟩, ?_, ?_⟩
  · rw [Stmt.tempUses_append, List.flatMap_append]
    exact hfirst.uses.append hsecond.uses
  · rw [Stmt.loopTemps_append, List.map_append]
    exact hfirst.loops.append hsecond.loops

/-- Statements around two bodies that use some more temporaries. -/
theorem UsesMade.around {made made' own : List TempDecl} {body orelse result : List Stmt}
    {uses : List (TempId × Access)} (hbody : UsesMade made body) (horelse : UsesMade made' orelse)
    (hkinds : ∀ decl ∈ own, decl.kind ≠ .object)
    (huses : Stmt.tempUses result = uses ++ (Stmt.tempUses body ++ Stmt.tempUses orelse))
    (hown : uses.Perm (own.flatMap TempDecl.uses))
    (hloops : Stmt.loopTemps result =
      own.map TempDecl.id ++ (Stmt.loopTemps body ++ Stmt.loopTemps orelse)) :
    UsesMade (made ++ made' ++ own) result := by
  have hbodies := hbody.append horelse
  refine ⟨List.forall_mem_append.mpr ⟨hbodies.kinds, hkinds⟩, ?_, ?_⟩
  · rw [huses, List.flatMap_append, ← Stmt.tempUses_append]
    exact List.perm_append_comm.trans (hbodies.uses.append hown)
  · rw [hloops, List.map_append, ← Stmt.loopTemps_append]
    exact List.perm_append_comm.trans (hbodies.loops.append_right _)

/-- What counting and boxing make of some statements: the temporaries that were made are used by the
loops they were made for. -/
structure Scoped (table : SymbolTable) (indexType : Ty) (before : List TempDecl)
    (body boxed : List Stmt) (after : List TempDecl) : Prop where
  made : ∃ made, after = before ++ made ∧ UsesMade made boxed
  loops : ∀ temps, after ⊆ temps → ∀ previous,
    List.Forall₂ (ScopedLoop table indexType temps) (Stmt.loops body) (Stmt.led previous boxed)

theorem Scoped.append {first second first' second' : List Stmt} {middle : List TempDecl}
    (hfirst : Scoped table indexType before first first' middle)
    (hsecond : Scoped table indexType middle second second' after) :
    Scoped table indexType before (first ++ second) (first' ++ second') after := by
  obtain ⟨made, rfl, hmade⟩ := hfirst.made
  obtain ⟨made', rfl, hmade'⟩ := hsecond.made
  refine ⟨⟨made ++ made', List.append_assoc .., hmade.append hmade'⟩,
    fun temps htemps previous => ?_⟩
  obtain ⟨last, hled⟩ := Stmt.led_append previous first' second'
  rw [Stmt.loops_append, hled]
  have hbefore : before ++ made ⊆ temps :=
    List.Subset.trans (List.subset_append_left _ _) htemps
  exact List.rel_append (hfirst.loops temps hbefore previous) (hsecond.loops temps htemps last)

theorem tempUses_of_asName (hname : e.asName.isSome) : tempUses e.nodes = [] := by
  obtain ⟨name, hname⟩ := Option.isSome_iff_exists.mp hname
  obtain ⟨note, access, rfl⟩ := Expr.eq_name_of_asName hname
  rfl

theorem tempUses_convert (ty : Ty) : tempUses (e.convert table ty).nodes = tempUses e.nodes := by
  unfold Expr.convert
  split <;> rfl

theorem tempUses_positions :
    tempUses (Loops.positions table indexType array span).nodes = tempUses array.nodes := by
  have hlength : tempUses (Loops.arrayLength array span).nodes = tempUses array.nodes := by
    simp [Loops.arrayLength, Loops.int, Expr.nodes, Expr.tempUse?]
  rw [← hlength]
  simp [Loops.positions, Loops.int, Expr.nodes, Expr.tempUse?, tempUses_convert]

theorem tempUses_storeElement (htarget : target.asName.isSome) :
    tempUses (Loops.storeElement table target (pointerTo elem array)
        (Loops.temp id .load indexType span) elem span).nodes =
      tempUses array.nodes ++ [(id, .load)] := by
  simp [Loops.storeElement, Stmt.nodes, Stmt.exprs, Expr.nodesAll, tempUses_of_asName htarget,
    tempUses_convert, Loops.temp, pointerTo, Expr.nodes, Expr.tempUse?]

variable {body orelse body' orelse' lowered boxed : List Stmt}

/-- The array is read for the range and for the element, and so is the counter. -/
theorem tempUses_overPointer (htarget : target.asName.isSome) :
    Stmt.tempUses [overPointer table indexType span target array elem body orelse id] =
      (tempUses array.nodes ++ [(id, .load)] ++ (tempUses array.nodes ++ [(id, .load)])) ++
        (Stmt.tempUses body ++ Stmt.tempUses orelse) := by
  have hcounter : tempUses (Loops.temp id .load indexType span).nodes = [(id, .load)] := rfl
  have hstore : Stmt.tempUses [Loops.storeElement table target (pointerTo elem array)
      (Loops.temp id .load indexType span) elem span] = tempUses array.nodes ++ [(id, .load)] := by
    rw [Stmt.tempUses_singleton, tempUses_storeElement htarget]
    exact List.append_nil _
  rw [Stmt.tempUses_singleton]
  simp only [overPointer, Stmt.bodies, Stmt.nodes, Stmt.exprs, Option.toList_some, Expr.nodesAll,
    List.append_nil, tempUses_append, tempUses_of_asName htarget, tempUses_positions, hcounter,
    List.nil_append, List.flatMap_cons, List.flatMap_nil]
  rw [Stmt.tempUses_cons, hstore]
  simp only [List.append_assoc]

/-- An array that is stored before the loop is written once and then read twice. -/
theorem tempUses_stored {value : Expr} {ty : Ty} {place : Span} {held : TempId}
    (htarget : target.asName.isSome) (hvalue : tempUses value.nodes = []) :
    Stmt.tempUses [.assign place [Loops.temp held .store ty place] value] ++
        Stmt.tempUses [overPointer table indexType span target (Loops.temp held .load ty place)
          elem body orelse id] =
      [(held, .store), (held, .load), (id, .load), (held, .load), (id, .load)] ++
        (Stmt.tempUses body ++ Stmt.tempUses orelse) := by
  rw [tempUses_overPointer htarget, Stmt.tempUses_singleton]
  simp [Stmt.nodes, Stmt.exprs, Stmt.bodies, Expr.nodesAll, Loops.temp, Expr.nodes, Expr.tempUse?,
    hvalue]

theorem loopTemps_overPointer :
    Stmt.loopTemps [overPointer table indexType span target array elem body orelse id] =
      ((tempUses array.nodes).map Prod.fst ++ [id]) ++
        (Stmt.loopTemps body ++ Stmt.loopTemps orelse) := by
  have hcounter : tempUses (Loops.temp id .load indexType span).nodes = [(id, .load)] := rfl
  rw [Stmt.loopTemps_singleton]
  simp only [overPointer, Stmt.headerTemps, Stmt.bodies, Option.toList_some, Expr.nodesAll,
    List.append_nil, tempUses_append, tempUses_positions, hcounter, List.map_append,
    List.flatMap_cons, List.flatMap_nil]
  rfl

theorem led_overPointer (previous : Option Stmt) :
    Stmt.led previous [overPointer table indexType span target array elem body orelse id] =
      (previous, overPointer table indexType span target array elem body orelse id) ::
        (Stmt.led (some (Loops.storeElement table target (pointerTo elem array)
          (Loops.temp id .load indexType span) elem span)) body ++ Stmt.led none orelse) := by
  simp [overPointer, Stmt.led, Stmt.ledWithin, Stmt.isLoop, Loops.storeElement]

variable {first middle start stop : List TempDecl} {index : Option Expr} {iter : Expr}

theorem runs_boxBody_cons {stmt : Stmt} :
    Runs (boxBody table (stmt :: body)) start boxed stop ↔
      ∃ own rest temps, Runs (stmt.rebuildM (boxExpr table) boxStmt) start own temps ∧
        Runs (boxBody table body) temps rest stop ∧ boxed = own ++ rest := by
  simp only [boxBody, Stmt.rebuildBodyM, threads_runs.bind, threads_runs.pure]
  constructor
  · rintro ⟨own, temps, hown, rest, _, hrest, rfl, rfl⟩
    exact ⟨own, rest, temps, hown, hrest, rfl⟩
  · rintro ⟨own, rest, temps, hown, hrest, rfl⟩
    exact ⟨own, temps, hown, rest, stop, hrest, rfl, rfl⟩

theorem runs_boxBody_nil :
    Runs (boxBody table []) start boxed stop ↔ boxed = [] ∧ stop = start :=
  threads_runs.pure

theorem runs_boxBody_singleton {stmt : Stmt} :
    Runs (boxBody table [stmt]) start boxed stop ↔
      Runs (stmt.rebuildM (boxExpr table) boxStmt) start boxed stop := by
  simp [runs_boxBody_cons, runs_boxBody_nil]

theorem runs_boxBody_append {stmts : List Stmt} :
    Runs (boxBody table (stmts ++ body)) start boxed stop ↔
      ∃ own rest temps, Runs (boxBody table stmts) start own temps ∧
        Runs (boxBody table body) temps rest stop ∧ boxed = own ++ rest := by
  induction stmts generalizing start boxed with
  | nil => simp [runs_boxBody_nil]
  | cons stmt stmts ih =>
      simp only [List.cons_append, runs_boxBody_cons, ih]
      constructor
      · rintro ⟨own, _, temps, hown, ⟨own', rest, temps', hown', hrest, rfl⟩, rfl⟩
        exact ⟨own ++ own', rest, temps', ⟨own, own', temps, hown, hown', rfl⟩, hrest,
          (List.append_assoc ..).symm⟩
      · rintro ⟨_, rest, temps', ⟨own, own', temps, hown, hown', rfl⟩, hrest, rfl⟩
        exact ⟨own, own' ++ rest, temps, hown, ⟨own', rest, temps', hown', hrest, rfl⟩,
          List.append_assoc ..⟩

/-- The bodies of a statement are scoped, and what it becomes uses some more temporaries. -/
theorem Scoped.around {own : List TempDecl} {stmt : Stmt} {result : List Stmt}
    {uses : List (TempId × Access)} (hbody : Scoped table indexType before body body' first)
    (horelse : Scoped table indexType first orelse orelse' middle)
    (huses : Stmt.tempUses result = uses ++ (Stmt.tempUses body' ++ Stmt.tempUses orelse'))
    (hheader : Stmt.loopTemps result =
      own.map TempDecl.id ++ (Stmt.loopTemps body' ++ Stmt.loopTemps orelse'))
    (hkinds : ∀ decl ∈ own, decl.kind ≠ .object) (hown : uses.Perm (own.flatMap TempDecl.uses))
    (hloops : ∀ temps, own ⊆ temps →
      (∀ last, List.Forall₂ (ScopedLoop table indexType temps)
        (Stmt.loops body ++ Stmt.loops orelse) (Stmt.led last body' ++ Stmt.led none orelse')) →
      ∀ previous, List.Forall₂ (ScopedLoop table indexType temps) (Stmt.loops [stmt])
        (Stmt.led previous result)) :
    Scoped table indexType before [stmt] result (middle ++ own) := by
  obtain ⟨made, rfl, hmade⟩ := hbody.made
  obtain ⟨made', rfl, hmade'⟩ := horelse.made
  refine ⟨⟨made ++ made' ++ own, by simp only [List.append_assoc],
    hmade.around hmade' hkinds huses hown hheader⟩, fun temps htemps => ?_⟩
  obtain ⟨hmiddle, hown⟩ := List.append_subset.mp htemps
  obtain ⟨hfirst, _⟩ := List.append_subset.mp hmiddle
  exact hloops temps hown fun last =>
    List.rel_append (hbody.loops temps hfirst last) (horelse.loops temps hmiddle none)

/-- A statement with two bodies that needs no temporaries itself. -/
theorem Scoped.within {stmt rebuilt : Stmt} (hstmt : stmt.bodies = [body, orelse])
    (hrebuilt : rebuilt.bodies = [body', orelse'])
    (hbody : Scoped table indexType before body body' first)
    (horelse : Scoped table indexType first orelse orelse' middle)
    (huses : tempUses rebuilt.nodes = []) (hheader : rebuilt.headerTemps = [])
    (hloop : ∀ temps previous, List.Forall₂ (ScopedLoop table indexType temps)
      ([stmt].filter Stmt.isLoop) (if rebuilt.isLoop then [(previous, rebuilt)] else [])) :
    Scoped table indexType before [stmt] [rebuilt] middle := by
  have hscoped : Scoped table indexType before [stmt] [rebuilt] (middle ++ []) := by
    refine hbody.around horelse ?_ ?_ (List.forall_mem_nil _) .nil
      fun temps _ hinner previous => ?_
    · simp [Stmt.tempUses_singleton, hrebuilt, huses]
    · simp [Stmt.loopTemps_singleton, hrebuilt, hheader]
    · rw [Stmt.loops_singleton, Stmt.innerLoops, Stmt.led_singleton, hstmt, hrebuilt]
      simp only [List.flatMap_cons, List.flatMap_nil, List.append_nil]
      exact List.rel_append (hloop temps previous) (hinner none)
  rwa [List.append_nil] at hscoped

/-- A loop whose bodies are done. -/
theorem scoped_counted {result : List Stmt} (hname : target.asName.isSome)
    (hiter : Untouched iter.nodes)
    (hcounted : Loops.Counted table indexType span target iter body' orelse' middle result after)
    (hbody : ∀ {start boxed stop}, Runs (boxBody table body') start boxed stop →
      Scoped table indexType before body boxed first)
    (horelse : ∀ {start boxed stop}, Runs (boxBody table orelse') start boxed stop →
      Scoped table indexType first orelse boxed middle)
    (hrun : Runs (boxBody table result) start boxed stop) :
    Scoped table indexType before [.forIn span target iter body orelse index] boxed after := by
  have htarget : Kept table target := kept_of_asName hname
  have hkeepsIter {start stop : List TempDecl} {iter' : Expr}
      (hrun : Runs (iter.rebuildM (boxExpr table)) start iter' stop) : tempUses iter'.nodes = [] :=
    ((keepsUses_rebuildM iter) _ _ _ trivial hrun).2.trans (tempUses_eq_nil_iff.mpr hiter)
  cases hcounted with
  | range hty =>
      have hcounter : (target.withAccess .load).asName.isSome := by rwa [Expr.asName_withAccess]
      have hindex : Kept table (target.withAccess .load) := kept_of_asName hcounter
      rw [runs_boxBody_singleton] at hrun
      simp only [Stmt.rebuildM, Expr.rebuildPartM, htarget, hindex, pure_bind,
        threads_runs.bind, threads_runs.pure, boxStmt] at hrun
      obtain ⟨iter', _, hiter', _, _, hbody', _, _, horelse', rfl, rfl⟩ := hrun
      refine (hbody hbody').within rfl rfl (horelse horelse') ?_ ?_ fun _ _ =>
        .cons (.range hty) .nil
      · simp [Stmt.nodes, Stmt.exprs, Expr.nodesAll, tempUses_of_asName hname,
          tempUses_of_asName hcounter, hkeepsIter hiter']
      · simp [Stmt.headerTemps, Expr.nodesAll, tempUses_of_asName hcounter, hkeepsIter hiter']
  | @named elem layout hty hiterName =>
      have harray := tempUses_of_asName hiterName
      rw [runs_boxBody_singleton] at hrun
      obtain ⟨_, _, _, hbody', horelse', rfl⟩ :=
        runs_overArray htarget (isBase_of_asName hiterName hty) hrun
      refine (hbody hbody').around (horelse horelse') (tempUses_overPointer hname) ?_
        (by simp) ?_ fun temps htemps hinner previous => ?_
      · rw [loopTemps_overPointer, harray]
        rfl
      · rw [harray]
        exact .rfl
      · rw [Stmt.loops_forIn, led_overPointer]
        exact .cons (.named hty hiterName (htemps List.mem_cons_self)) (hinner _)
  | @stored elem layout hty hiterName =>
      have hkept : Kept table (Loops.temp ⟨middle.length⟩ .store (.array elem layout) iter.span) :=
        kept_temp ..
      rw [runs_boxBody_cons] at hrun
      obtain ⟨_, _, _, hassign, hloop, rfl⟩ := hrun
      simp only [Stmt.rebuildM, Expr.rebuildAllM, hkept, pure_bind, threads_runs.bind,
        threads_runs.pure, boxStmt] at hassign
      obtain ⟨iter', _, hiter', rfl, rfl⟩ := hassign
      rw [runs_boxBody_singleton] at hloop
      obtain ⟨_, _, _, hbody', horelse', rfl⟩ := runs_overArray htarget (isBase_temp ..) hloop
      refine (hbody hbody').around (horelse horelse')
        ((Stmt.tempUses_append ..).trans (tempUses_stored hname (hkeepsIter hiter')))
        ((Stmt.loopTemps_append ..).trans ?_) (by simp)
        (.cons _ (.cons _ (.swap _ _ _))) fun temps htemps hinner previous => ?_
      · rw [loopTemps_overPointer]
        rfl
      · rw [Stmt.loops_forIn, List.singleton_append, Stmt.led, led_overPointer]
        refine .cons (.stored hty hiterName (htemps ?_) (htemps ?_)) (hinner _)
        · simp
        · simp

/-- A statement without bodies needs no temporaries. -/
theorem scoped_of_simple {stmt : Stmt} (hsimple : stmt.bodies = [])
    (huntouched : Untouched stmt.nodes) (hrun : Runs (boxBody table [stmt]) start boxed stop) :
    Scoped table indexType before [stmt] boxed before := by
  have hplain := plain_of_simple hsimple huntouched (runs_boxBody_singleton.mp hrun)
  have huses : Stmt.tempUses boxed = [] := by
    refine tempUses_eq_nil_iff.mpr fun node hnode => ?_
    obtain ⟨inner, hinner, hnode⟩ := List.mem_flatMap.mp hnode
    exact (hplain inner hinner).2 node hnode
  have hloops : Stmt.loops boxed = [] :=
    List.filter_eq_nil_iff.mpr fun inner hinner => by simp [(hplain inner hinner).1]
  refine ⟨⟨[], (List.append_nil _).symm, .nil huses hloops⟩, fun temps _ previous => ?_⟩
  have hled : Stmt.led previous boxed = [] := by
    rw [← List.map_eq_nil_iff, Stmt.map_snd_led, hloops]
  have hstmt : Stmt.loops [stmt] = [] := by
    simp [Stmt.loops_singleton, Stmt.innerLoops, hsimple, Stmt.isLoop_of_bodies hsimple]
  rw [hled, hstmt]
  exact .nil

/-- A condition above two bodies needs no temporaries. -/
theorem scoped_conditional {test : Expr} {stmt : Stmt}
    {rebuilt : Expr → List Stmt → List Stmt → Stmt}
    (hstmt : stmt.bodies = [body, orelse]) (hloop : stmt.isLoop = false)
    (hrebuilt : ∀ test body orelse, (rebuilt test body orelse).bodies = [body, orelse] ∧
      (rebuilt test body orelse).isLoop = false ∧ (rebuilt test body orelse).exprs = [test])
    (htest : Untouched test.nodes)
    (hbody : ∀ {start boxed stop}, Runs (boxBody table body') start boxed stop →
      Scoped table indexType before body boxed first)
    (horelse : ∀ {start boxed stop}, Runs (boxBody table orelse') start boxed stop →
      Scoped table indexType first orelse boxed middle)
    (hrun : Runs (do
      let test ← test.rebuildM (boxExpr table)
      let body ← boxBody table body'
      let orelse ← boxBody table orelse'
      pure [rebuilt test body orelse]) start boxed stop) :
    Scoped table indexType before [stmt] boxed middle := by
  simp only [threads_runs.bind, threads_runs.pure] at hrun
  obtain ⟨test', _, htest', body'', _, hbody', orelse'', _, horelse', rfl, rfl⟩ := hrun
  obtain ⟨hbodies, hstays, hexprs⟩ := hrebuilt test' body'' orelse''
  have huses : tempUses test'.nodes = [] :=
    ((keepsUses_rebuildM test) _ _ _ trivial htest').2.trans (tempUses_eq_nil_iff.mpr htest)
  refine (hbody hbody').within hstmt hbodies (horelse horelse') ?_ ?_ fun _ _ => ?_
  · simp [Stmt.nodes, hexprs, Expr.nodesAll, huses]
  · exact Stmt.headerTemps_of_isLoop hstays
  · simp [hloop, hstays]

mutual

/-- A statement of the source is scoped when its loops are counted and its values boxed. -/
theorem scoped_lowerStmt {stmt : Stmt} {lowered boxed : List Stmt}
    {before after start stop : List TempDecl} (hstmt : ∀ inner ∈ stmt.nested, Untouched inner.nodes)
    (hlower : Pass.Reaches (Stmt.rebuildM pure (Loops.lowerStmt table indexType) stmt) before
      lowered after) (hrun : Runs (boxBody table lowered) start boxed stop) :
    Scoped table indexType before [stmt] boxed after := by
  cases stmt with
  | forIn span target iter body orelse index =>
      obtain ⟨hself, hbodies⟩ := List.forall_mem_cons.mp hstmt
      obtain ⟨hbody, horelse⟩ := List.forall_mem_append.mp hbodies
      have hiter := untouched_nodesAll.mp hself iter (by simp [Stmt.exprs])
      simp only [Stmt.rebuildM, Expr.rebuildM_pure, Expr.rebuildPartM_pure, pure_bind,
        Pass.reaches_bind, Loops.lowerStmt] at hlower
      obtain ⟨body', _, hbody', orelse', _, horelse', hloop⟩ := hlower
      obtain ⟨hname, hcounted⟩ := Loops.counted_lowerLoop hloop
      exact scoped_counted hname hiter hcounted (fun h => scoped_lowerBody hbody hbody' h)
        (fun h => scoped_lowerBody horelse horelse' h) hrun
  | whileLoop span test body orelse | branch span test body orelse =>
      obtain ⟨hself, hbodies⟩ := List.forall_mem_cons.mp hstmt
      obtain ⟨hbody, horelse⟩ := List.forall_mem_append.mp hbodies
      have htest := untouched_nodesAll.mp hself test List.mem_cons_self
      simp only [Stmt.rebuildM, Expr.rebuildM_pure, pure_bind, Pass.reaches_bind, Loops.lowerStmt,
        Pass.reaches_pure] at hlower
      obtain ⟨body', _, hbody', orelse', _, horelse', rfl, rfl⟩ := hlower
      exact scoped_conditional rfl rfl (fun _ _ _ => ⟨rfl, rfl, rfl⟩) htest
        (fun h => scoped_lowerBody hbody hbody' h) (fun h => scoped_lowerBody horelse horelse' h)
        (runs_boxBody_singleton.mp hrun)
  | _ =>
      simp only [Stmt.rebuildM, Expr.rebuildM_pure, Expr.rebuildAllM_pure, Expr.rebuildPartM_pure,
        pure_bind, Loops.lowerStmt, Pass.reaches_pure] at hlower
      obtain ⟨rfl, rfl⟩ := hlower
      exact scoped_of_simple rfl (hstmt _ List.mem_cons_self) hrun
termination_by structural stmt

/-- A body of the source is scoped when its loops are counted and its values boxed. -/
theorem scoped_lowerBody {body lowered boxed : List Stmt}
    {before after start stop : List TempDecl}
    (hbody : ∀ inner ∈ Stmt.nestedBody body, Untouched inner.nodes)
    (hlower : Pass.Reaches (Stmt.rebuildBodyM pure (Loops.lowerStmt table indexType) body) before
      lowered after) (hrun : Runs (boxBody table lowered) start boxed stop) :
    Scoped table indexType before body boxed after := by
  cases body with
  | nil =>
      simp only [Stmt.rebuildBodyM, Pass.reaches_pure] at hlower
      obtain ⟨rfl, rfl⟩ := hlower
      obtain ⟨rfl, rfl⟩ := runs_boxBody_nil.mp hrun
      exact ⟨⟨[], (List.append_nil _).symm, .nil rfl rfl⟩, fun _ _ _ => .nil⟩
  | cons stmt body =>
      obtain ⟨hstmt, hbody⟩ := List.forall_mem_append.mp hbody
      simp only [Stmt.rebuildBodyM, Pass.reaches_bind, Pass.reaches_pure] at hlower
      obtain ⟨stmts, _, hstmt', rest, _, hbody', rfl, rfl⟩ := hlower
      obtain ⟨_, _, _, hfirst, hsecond, rfl⟩ := runs_boxBody_append.mp hrun
      exact (scoped_lowerStmt hstmt hstmt' hfirst).append (scoped_lowerBody hbody hbody' hsecond)
termination_by structural body

end

end Boxing

/-! ## Functions -/

/-- The temporaries of loops are well scoped. They are numbered by their positions, every loop of
the source uses its own as it should, nothing else is done with them in the whole function, and they
are the ones in the headers of the loops, each in one of them. -/
structure FunctionDef.ScopesTemps (table : SymbolTable) (indexType : Ty)
    (source func : FunctionDef) : Prop where
  numbered : Numbered func.temps
  loops : List.Forall₂ (Boxing.ScopedLoop table indexType func.temps) source.loops func.ledLoops
  uses : (tempUses func.nodes).Perm (func.temps.flatMap TempDecl.uses)
  headers : (Stmt.loopTemps func.body).Perm
    ((func.temps.filter fun decl => decl.kind ≠ .object).map TempDecl.id)
  failure : ∀ value ∈ func.failureExpr, Untouched value.nodes

namespace FunctionDef.ScopesTemps

variable {table : SymbolTable} {indexType : Ty} {source func : FunctionDef}

/-- A temporary that occurs in the body is one that was made for a loop. -/
theorem declared (hscopes : ScopesTemps table indexType source func) {note : Note} {id : TempId}
    {access : Access} (hnode : .temp note id access ∈ func.nodes) :
    ∃ decl ∈ func.temps, decl.id = id ∧ decl.kind ≠ .object := by
  have huse : (id, access) ∈ tempUses func.nodes := List.mem_filterMap.mpr ⟨_, hnode, rfl⟩
  obtain ⟨decl, hdecl, huse⟩ := List.mem_flatMap.mp (hscopes.uses.mem_iff.mp huse)
  obtain ⟨hid, hkind⟩ := TempDecl.mem_uses huse
  exact ⟨decl, hdecl, hid.symm, hkind⟩

/-- What is done with one temporary in the whole body. -/
theorem usesOf (hscopes : ScopesTemps table indexType source func) {decl : TempDecl}
    (hdecl : decl ∈ func.temps) :
    ((tempUses func.nodes).filter fun use => use.1 = decl.id).Perm decl.uses := by
  rw [← filter_uses hscopes.numbered.nodup hdecl]
  exact hscopes.uses.filter _

/-- No two loops share a temporary. -/
theorem nodup (hscopes : ScopesTemps table indexType source func) :
    (Stmt.loopTemps func.body).Nodup := by
  refine hscopes.headers.nodup_iff.mpr (hscopes.numbered.nodup.sublist ?_)
  exact List.Sublist.map _ List.filter_sublist

end FunctionDef.ScopesTemps

namespace FunctionDef

/-- The temporaries that own boxed values are added behind those of loops. -/
theorem scopesTemps_of_scoped {table : SymbolTable} {indexType : Ty} {typed boxed : FunctionDef}
    {temps : List TempDecl} {owners : List TempId} (hnumbered : Numbered temps)
    (hscoped : Boxing.Scoped table indexType [] typed.body boxed.body temps)
    (hadds : Boxing.Adds temps owners boxed.temps)
    (hfailure : ∀ value ∈ boxed.failureExpr, Untouched value.nodes) :
    ScopesTemps table indexType typed boxed := by
  obtain ⟨_, rfl, hkinds, huses, hheaders⟩ := hscoped.made
  obtain ⟨objects, hobjects, hobject, -⟩ := hadds.made
  have hunused : objects.flatMap TempDecl.uses = [] :=
    List.flatMap_eq_nil_iff.mpr fun decl hdecl => by
      rw [TempDecl.uses, (hobject decl hdecl).1]
  have hloops : (boxed.temps.filter fun decl => decl.kind ≠ .object) = temps := by
    rw [hobjects, List.filter_append, List.filter_eq_self.mpr (by simpa using hkinds),
      List.filter_eq_nil_iff.mpr, List.append_nil]
    exact fun decl hdecl => by simp [(hobject decl hdecl).1]
  refine ⟨hadds.numbered hnumbered, hscoped.loops _ ?_ none, ?_, ?_, hfailure⟩
  · rw [hobjects]
    exact List.subset_append_left _ _
  · rw [hobjects, List.flatMap_append, hunused, List.append_nil]
    exact huses
  · rw [hloops]
    exact hheaders

/-- The value that stands for a failure is a constant. -/
theorem untouched_failureValue {ret : Ty} {span : Span} {value : Expr}
    (hvalue : Boxing.failureValue ret span = some value) : Untouched value.nodes := by
  have hconst (c : Constant) (ty : Ty)
      (hsome : some (.const (.annotated span ty) c) = some value) : Untouched value.nodes := by
    obtain rfl := Option.some.inj hsome
    exact List.forall_mem_singleton.mpr rfl
  unfold Boxing.failureValue at hvalue
  split at hvalue
  case h_6 => cases hvalue
  all_goals exact hconst _ _ hvalue

/-- The temporaries of loops are well scoped in every compiled function. The loops of the source are
those of the typed function, and their iterables are plain names or not in both, apart from values
of a type that the builtins `int` and `float` convert to. -/
theorem scopesTemps_compile {setting : Inference.Setting} {func : FunctionDef}
    {signature : Signature} {compiled : Compiled}
    (huncounted : ∀ stmt ∈ func.statements, stmt.Uncounted) (htemps : func.temps = [])
    (hcompile : Pass.Succeeds (func.compile setting signature) compiled) :
    ∃ inferred typed, Pass.Succeeds (Inference.inferFunction setting func signature) inferred ∧
      Pass.Succeeds (inferred.func.typed inferred.symbols) typed ∧
      List.Forall₂ (Stmt.Iterates fun iter fixed => fixed.asName = iter.asName ∨
        ∃ ty, setting.options.Converts ty ∧ fixed.ty = some ty) func.loops typed.loops ∧
      ScopesTemps compiled.symbols setting.options.indexType typed compiled.func := by
  simp only [compile, Pass.succeeds_bind, Pass.succeeds_pure] at hcompile
  obtain ⟨_, _, inferred, hinfer, typed, htyped, counted, hcounted, boxed, hboxed, _, _, rfl⟩ :=
    hcompile
  refine ⟨inferred, typed, hinfer, htyped, iterates_typed huncounted hinfer htyped, ?_⟩
  obtain ⟨hsound, hkept, _⟩ := sound_typed huncounted hinfer htyped
  obtain ⟨hsteady, hspares⟩ := steady_counted (steady_typed huncounted hinfer htyped) hcounted
  rw [hkept, htemps] at hspares
  simp only [FunctionDef.counted, Pass.succeeds_bind, Pass.succeeds_pure] at hcounted
  obtain ⟨⟨body, temps⟩, hlower, _, _, rfl⟩ := hcounted
  rw [hkept, htemps] at hlower
  simp only [FunctionDef.boxed, Pass.succeeds_bind, Pass.succeeds_ofExcept,
    Pass.succeeds_pure, box, Inference.bind_eq_ok, Inference.pure_eq_ok, Prod.exists] at hboxed
  obtain ⟨_, ⟨boxed, last, hbox, rfl⟩, _, _, rfl⟩ := hboxed
  have hplain : ∀ stmt ∈ typed.statements, Untouched stmt.nodes := by
    intro stmt hstmt node hnode
    have hagrees := ((hsound stmt hstmt).1 node hnode).2
    cases node with
    | temp => exact hagrees.elim
    | _ => rfl
  have hadds := (Boxing.ownedBody_rebuildBodyM hsteady hbox).nodes.adds
  exact scopesTemps_of_scoped (hspares.numbered rfl) (Boxing.scoped_lowerBody hplain hlower hbox)
    hadds fun _ => untouched_failureValue

end FunctionDef

/-- A loop over one array in a loop over a part of another, and a branch with a loop in it:
`for x in xs[1:]: for y in ys: t = (x, y)`, then `if n: for z in xs: print z`. -/
def crossing : FunctionDef :=
  open Builder in
  function "crossing" ["xs", "ys", "n"]
    [forIn (store "x") (subscript (load "xs") (slice (some (int 1)) none))
        [forIn (store "y") (load "ys") [assign (store "t") (tuple [load "x", load "y"])]],
      branch (load "n") [forIn (store "z") (load "xs") [print [load "z"]]] []]

/-- The inner loop takes its counter first, and the array of the outer loop is stored. -/
theorem scopesTemps_compile_crossing : ∃ compiled,
    (∀ stmt ∈ crossing.statements, stmt.Uncounted) ∧ crossing.temps = [] ∧
    Pass.Succeeds (crossing.compile globalsOnly
      { args := [.strided .float64 1, .strided .float64 1, .int64] }) compiled ∧
    compiled.func.temps.map TempDecl.kind = [.index, .array, .index, .index, .object] ∧
    (tempUses compiled.func.nodes).length = 9 ∧
    ∃ inferred typed, Pass.Succeeds (Inference.inferFunction globalsOnly crossing
        { args := [.strided .float64 1, .strided .float64 1, .int64] }) inferred ∧
      Pass.Succeeds (inferred.func.typed inferred.symbols) typed ∧
      List.Forall₂ (Stmt.Iterates fun iter fixed => fixed.asName = iter.asName ∨
        ∃ ty, globalsOnly.options.Converts ty ∧ fixed.ty = some ty) crossing.loops typed.loops ∧
      FunctionDef.ScopesTemps compiled.symbols .int64 typed compiled.func := by
  have huncounted : ∀ stmt ∈ crossing.statements, stmt.Uncounted := by
    simp [crossing, Builder.function, Builder.assign, Builder.forIn, Builder.branch, Builder.print,
      FunctionDef.statements, Stmt.nestedBody, Stmt.nested, Stmt.Uncounted]
  obtain ⟨compiled, hcompile, htest⟩ : ∃ compiled, Pass.Succeeds (crossing.compile globalsOnly
        { args := [.strided .float64 1, .strided .float64 1, .int64] }) compiled ∧
      decide (compiled.func.temps.map TempDecl.kind = [.index, .array, .index, .index, .object] ∧
        (tempUses compiled.func.nodes).length = 9) = true :=
    Pass.exists_succeeds (fun _ _ => .host) (by decide +kernel)
  obtain ⟨hkinds, hlength⟩ := of_decide_eq_true htest
  exact ⟨compiled, huncounted, rfl, hcompile, hkinds, hlength,
    FunctionDef.scopesTemps_compile huncounted rfl hcompile⟩

end KernelFront
