import KernelFront.Proofs.Inference.StmtOutcomes
import KernelFront.Proofs.Inference.Walk

/-! # Inference of statements keeps agreement

A store gives its place a type or converts the value to the type of the place. Returned values wait
for the type of the result, behind deferred conversions; only a return without a value fixes that
type, to `void`, which nothing widens.
-/

namespace KernelFront.Inference

open Scope (resultSlot)

/-- The expressions of a statement are settled and have the types that it asks for. A returned value
is settled behind its conversion, and a return without a value has made the result `void`. -/
def Ready (index : Ty) (table : SymbolTable) : Stmt → Prop
  | .ret _ none => table.typeOf? resultSlot = some .void
  | .ret _ (some value) =>
      ∃ note node, value = .deferredCoercion note node resultSlot ∧ Settled index table node.nodes
  | stmt => Settled index table stmt.nodes ∧ stmt.Agrees (settledType? table)

/-- All these statements are ready. -/
def AllReady (index : Ty) (table : SymbolTable) (stmts : List Stmt) : Prop :=
  ∀ stmt ∈ stmts, Ready index table stmt

section AllReady

variable {index : Ty} {table : SymbolTable}

@[simp] theorem allReady_nil : AllReady index table [] := List.forall_mem_nil _

@[simp] theorem allReady_cons {stmt : Stmt} {stmts : List Stmt} :
    AllReady index table (stmt :: stmts) ↔ Ready index table stmt ∧ AllReady index table stmts :=
  List.forall_mem_cons

@[simp] theorem allReady_append {first second : List Stmt} :
    AllReady index table (first ++ second) ↔
      AllReady index table first ∧ AllReady index table second :=
  List.forall_mem_append

theorem Ready.mono {before after : Scope} (hgrows : before.Grows after) {stmt : Stmt}
    (hready : Ready index before.symbols stmt) : Ready index after.symbols stmt := by
  have hother (hready : Settled index before.symbols stmt.nodes ∧
      stmt.Agrees (settledType? before.symbols)) :
      Settled index after.symbols stmt.nodes ∧ stmt.Agrees (settledType? after.symbols) :=
    ⟨hready.1.mono hgrows, hready.2.mono hgrows.settledType?⟩
  cases stmt with
  | ret span value =>
      cases value with
      | none => exact hgrows.void hready
      | some value =>
          obtain ⟨note, node, rfl, hnode⟩ := hready
          exact ⟨note, node, rfl, hnode.mono hgrows⟩
  | _ => exact hother hready

theorem AllReady.mono {before after : Scope} (hgrows : before.Grows after) {stmts : List Stmt}
    (hready : AllReady index before.symbols stmts) : AllReady index after.symbols stmts :=
  fun stmt hstmt => (hready stmt hstmt).mono hgrows

end AllReady

/-! ## Stores -/

variable {setting : Setting} {index : Ty} {span : Span}

theorem ready_assign {table : SymbolTable} {target value : Expr} {ty : Ty}
    (htarget : Settled index table target.nodes) (hvalue : Settled index table value.nodes)
    (htargetTy : settledType? table target = some ty)
    (hvalueTy : settledType? table value = some ty) :
    AllReady index table (Stmt.assign span [target] value).nested := by
  simp only [Stmt.nested, allReady_cons, allReady_nil, and_true]
  refine ⟨?_, target, ty, rfl, htargetTy, hvalueTy⟩
  simp only [Stmt.nodes, Stmt.exprs, List.singleton_append, Expr.nodesAll, List.append_nil,
    settled_append]
  exact ⟨htarget, hvalue⟩

theorem grows_untyped {scope : Scope} {id : SymbolId} {ty : Ty}
    (huntyped : (scope.symbols.get? id).any fun var => var.ty.isNone) :
    scope.Grows (scope.setType id ty) := by
  refine Scope.grows_setType ?_
  unfold SymbolTable.typeOf?
  cases hvar : scope.symbols.get? id with
  | none => rfl
  | some var =>
      rw [hvar] at huntyped
      exact Option.isNone_iff_eq_none.mp huntyped

/-- A binding takes the type that it is given. -/
theorem settledType?_setType {scope : Scope} {e : Expr} {id : SymbolId} {var : Variable}
    (hplaced : Placed e) (hbinding : e.binding = some (.symbol id))
    (hvar : scope.symbols.get? id = some var) (ty : Ty) :
    settledType? (scope.setType id ty).symbols e = some ty := by
  unfold Placed at hplaced
  rw [hbinding] at hplaced
  unfold settledType?
  rw [hbinding]
  exact (if_neg hplaced.1).trans (SymbolTable.typeOf?_setType_self hvar _)

/-- Storing in a visited place. -/
theorem visited_typeStore {target value : Expr} {stmt : Stmt} {before after : Scope}
    (hreach : Pass.Reaches (typeStore target value span) before stmt after) :
    Visited before (fun table => Settled index before.symbols target.nodes →
      Settled index before.symbols value.nodes → AllReady index table stmt.nested) after := by
  cases storeOutcome_of_reaches hreach with
  | @fresh id ty hbinding huntyped hty =>
      -- The place takes the type of the value, which stays what it was.
      have hgrows : before.Grows (before.setType id ty) := grows_untyped huntyped
      refine ⟨hgrows, fun _ htarget hvalue => ?_⟩
      obtain ⟨var, hvar⟩ := Option.isSome_iff_exists.mp (Option.isSome_of_any huntyped)
      refine ready_assign (htarget.mono hgrows) (hvalue.mono hgrows)
        (settledType?_setType htarget.placed hbinding hvar ty) (hgrows.settledType? ?_)
      rw [settledType?_eq hvalue.placed, hty]
  | @settled own _ hown =>
      refine .refl fun htarget hvalue => ?_
      refine ready_assign htarget (settled_convert hvalue own) ?_ (settledType?_convert hvalue own)
      rw [settledType?_eq htarget.placed, hown]

/-- Storing elements one by one. -/
theorem visited_storeAll {targets elements : List Expr} {stmts : List Stmt} {before after : Scope}
    (hreach : Pass.Reaches (storeAll setting span targets elements) before stmts after) :
    Visited before (fun table =>
      Settled setting.options.indexType before.symbols (Expr.nodesAll elements) →
        AllReady setting.options.indexType table (Stmt.nestedBody stmts)) after := by
  replace hreach := storeRun_of_reaches hreach
  induction hreach with
  | done => exact .refl fun _ => allReady_nil
  | store htarget hstore _ ih =>
      have htarget := visited_inferExpr htarget
      have hstore := @visited_typeStore setting.options.indexType _ _ _ _ _ _ hstore
      refine ⟨htarget.grows.trans (hstore.grows.trans ih.grows), ?_⟩
      intro hanonymous hparts
      -- Each store may give its place a type, so the rest is taken to the scope after it.
      have hfirst := htarget.grows.anonymous hanonymous
      have hsecond := hstore.grows.anonymous hfirst
      obtain ⟨helement, helements⟩ := settled_append.mp hparts
      simp only [Stmt.nestedBody, allReady_append]
      refine ⟨?_, ih.holds hsecond ?_⟩
      · exact (hstore.holds hfirst (htarget.holds hanonymous) (helement.mono htarget.grows)).mono
          ih.grows
      · exact helements.mono (htarget.grows.trans hstore.grows)

/-! ## Unpacking -/

theorem settled_unpackedElements {table : SymbolTable} {value : Expr} {elements : List Expr}
    (hparts : Settled index table value.nodes)
    (hrule : unpackedElements setting value table = .ok elements) :
    Settled index table (Expr.nodesAll elements) := by
  simp only [unpackedElements, bind_eq_ok] at hrule
  obtain ⟨ty, _, hrule⟩ := hrule
  split at hrule
  · cases hrule
    refine settled_nodesAll.mpr (List.forall_mem_map.mpr fun i _ => ?_)
    simp only [Expr.nodes, settled_cons, settled_append]
    exact ⟨⟨trivial, trivial⟩, hparts, settled_constantOf _ _ _⟩
  · cases hrule
    exact (settled_cons.mp hparts).2
  · cases hrule
    exact (settled_cons.mp hparts).2
  · split at hrule
    · cases hrule
      exact settled_nodesAll.mpr (List.forall_mem_map.mpr fun item _ => settled_constantOf _ _ _)
    · cases hrule

theorem visited_inferAssign {targets : List Expr} {value : Expr} {stmts : List Stmt}
    {before after : Scope}
    (hreach : Pass.Reaches (inferAssign setting span targets value) before stmts after) :
    Visited before (fun table => Settled setting.options.indexType before.symbols value.nodes →
      AllReady setting.options.indexType table (Stmt.nestedBody stmts)) after := by
  obtain ⟨elements, hparts, hstores⟩ := exists_inferAssign hreach
  refine (visited_storeAll hstores).rule fun hready hvalue => hready ?_
  cases hparts with
  | whole => simpa only [Expr.nodesAll, List.append_nil] using hvalue
  | elements _ helements => exact settled_unpackedElements hvalue helements

/-- A loop target gets a type, or has one that meets the elements. -/
theorem grows_bindElement {target : Expr} {element : Ty} {before after : Scope} {result : Unit}
    (hreach : Pass.Reaches (bindElement target element) before result after) :
    before.Grows after := by
  cases bindOutcome_of_reaches hreach with
  | fresh _ huntyped => exact grows_untyped huntyped
  | settled => exact .refl before

/-! ## Returns -/

/-- Nothing but `void` meets `void`. -/
theorem promote?_void {left right result : Ty} (hvoid : left = .void ∨ right = .void)
    (hpromote : left.promote? right = some result) : result = .void := by
  rcases hvoid with rfl | rfl
  · cases right <;> simp [Ty.promote?, Ty.promoteFlat, Ty.directed, Ty.isNumeric] at hpromote
    exact hpromote.symm
  · cases left <;> simp [Ty.promote?, Ty.promoteFlat, Ty.directed, Ty.isNumeric] at hpromote
    exact hpromote.symm

theorem join_void {left right result : Ty} {span : Span} (hvoid : left = .void ∨ right = .void)
    (hjoin : join left right span = .ok result) : result = .void := by
  unfold join Ty.promote at hjoin
  cases hpromote : left.promote? right with
  | none =>
      rw [hpromote] at hjoin
      cases hjoin
  | some ty =>
      rw [hpromote] at hjoin
      cases hjoin
      exact promote?_void hvoid hpromote

/-- The result takes a type that is `void` if the result was. -/
theorem visited_setResult {scope : Scope} {ty : Ty}
    (hvoid : scope.resultType? = some .void → ty = .void) :
    Visited scope (fun table => table.typeOf? resultSlot = some ty)
      (scope.setType resultSlot ty) := by
  refine ⟨Scope.grows_setResult hvoid, ?_⟩
  rintro ⟨var, hvar, _⟩
  exact SymbolTable.typeOf?_setType_self hvar _

theorem visited_inferReturn {value : Option Expr} {stmt : Stmt} {before after : Scope}
    (hreach : Pass.Reaches (inferReturn span value) before stmt after) :
    Visited before (fun table => Settled index before.symbols (Expr.nodesAll value.toList) →
      AllReady index table stmt.nested) after := by
  cases returnOutcome_of_reaches hreach with
  | nothing =>
      exact (visited_setResult fun _ => rfl).rule fun hready _ =>
        allReady_cons.mpr ⟨hready, allReady_nil⟩
  | @value value _ _ note _ _ hlater =>
      have hset := visited_setResult fun hvoid => join_void (.inl rfl) (hlater hvoid)
      refine ⟨hset.grows, fun _ hparts => allReady_cons.mpr ⟨⟨note, value, rfl, ?_⟩, allReady_nil⟩⟩
      simp only [Option.toList_some, Expr.nodesAll, List.append_nil] at hparts
      exact hparts.mono hset.grows

/-! ## Statements -/

theorem visited_inferTest {test result : Expr} {before after : Scope}
    (hreach : Pass.Reaches (inferTest setting test) before result after) :
    Visited before (fun table => Settled setting.options.indexType table result.nodes ∧
      settledType? table result = some .bool) after := by
  simp only [inferTest, Pass.reaches_bind, reaches_apply, Except.ok.injEq] at hreach
  obtain ⟨test', middle, htest, rfl, rfl⟩ := hreach
  exact (visited_inferExpr htest).rule fun hparts =>
    ⟨settled_convert hparts .bool, settledType?_convert hparts .bool⟩

theorem visited_inferPrinted {values results : List Expr} {before after : Scope}
    (hreach : Pass.Reaches (inferPrinted setting values) before results after) :
    Visited before (fun table => Settled setting.options.indexType table (Expr.nodesAll results) ∧
      ∀ value ∈ results, settledType? table value = some .object) after := by
  induction values generalizing results before with
  | nil =>
      simp only [inferPrinted, Pass.reaches_pure] at hreach
      obtain ⟨rfl, rfl⟩ := hreach
      exact .refl ⟨settled_nil, List.forall_mem_nil _⟩
  | cons value values ih =>
      simp only [inferPrinted, Pass.reaches_bind, reaches_apply, Except.ok.injEq,
        Pass.reaches_pure] at hreach
      obtain ⟨value', middle, hvalue, boxed, _, ⟨rfl, rfl⟩, rest, _, hrest, rfl, rfl⟩ := hreach
      have hrest := ih hrest
      refine (visited_inferExpr hvalue).trans (hrest.rule fun hlater hparts => ?_)
      constructor
      · exact settled_append.mpr ⟨(settled_convert hparts .object).mono hrest.grows, hlater.1⟩
      · refine List.forall_mem_cons.mpr ⟨?_, hlater.2⟩
        exact hrest.grows.settledType? (settledType?_convert hparts .object)

mutual

/-- Visiting a statement of the source leaves statements that are ready. -/
theorem visited_inferStmt {stmt : Stmt} {results : List Stmt} {before after : Scope}
    (huncounted : ∀ inner ∈ stmt.nested, inner.Uncounted)
    (hreach : Pass.Reaches (inferStmt setting stmt) before results after) :
    Visited before (AllReady setting.options.indexType · (Stmt.nestedBody results)) after := by
  cases stmt with
  | assign span targets value =>
      simp only [inferStmt, Pass.reaches_bind] at hreach
      obtain ⟨value', middle, hvalue, hassign⟩ := hreach
      exact (visited_inferExpr hvalue).trans (visited_inferAssign hassign)
  | augAssign span target op value =>
      simp only [inferStmt, Pass.reaches_bind] at hreach
      obtain ⟨value', middle, hvalue, hstore⟩ := hreach
      refine (visited_inferExpr hvalue).trans ((visited_storeAll hstore).rule ?_)
      intro hready hparts
      exact hready (by simpa only [Expr.nodesAll, List.append_nil] using hparts)
  | forIn span target iter body orelse index =>
      obtain ⟨rfl, hnested⟩ := List.forall_mem_cons.mp huncounted
      have hbodies := (List.forall_mem_append.mp hnested).1
      obtain ⟨rfl, -, _, _, _, _, _, _, _, hiter, -, htarget, hbind, hbody, rfl⟩ :=
        exists_forIn hreach
      have hiter := visited_inferExpr hiter
      have htarget := visited_inferExpr htarget
      have hbind := grows_bindElement hbind
      have hbody := visited_inferBody hbodies hbody
      refine hiter.trans (htarget.trans ⟨hbind.trans hbody.grows, ?_⟩)
      intro hanonymous htarget' hiter'
      simp only [Stmt.nestedBody, Stmt.nested, List.append_nil, allReady_cons]
      refine ⟨⟨?_, rfl⟩, hbody.holds (hbind.anonymous hanonymous)⟩
      simp only [Stmt.nodes, Stmt.exprs, Option.toList_none, Expr.nodesAll, List.append_nil,
        settled_append]
      have hlater := hbind.trans hbody.grows
      exact ⟨htarget'.mono hlater, hiter'.mono (htarget.grows.trans hlater)⟩
  | whileLoop span test body orelse =>
      have hbodies := List.forall_mem_append.mp (List.forall_mem_cons.mp huncounted).2
      obtain ⟨rfl, _, _, _, htest, hbody, rfl⟩ := exists_whileLoop hreach
      have hbody := visited_inferBody hbodies.1 hbody
      refine (visited_inferTest htest).trans (hbody.rule ?_)
      rintro hready ⟨htest, htestTy⟩
      simp only [Stmt.nestedBody, Stmt.nested, List.append_nil, allReady_cons]
      refine ⟨⟨?_, hbody.grows.settledType? htestTy⟩, hready⟩
      simpa only [Stmt.nodes, Stmt.exprs, Expr.nodesAll, List.append_nil] using
        htest.mono hbody.grows
  | branch span test body orelse =>
      have hbodies := List.forall_mem_append.mp (List.forall_mem_cons.mp huncounted).2
      simp only [inferStmt, Pass.reaches_bind, Pass.reaches_pure] at hreach
      obtain ⟨test', first, htest, body', second, hbody, orelse', _, horelse, rfl, rfl⟩ := hreach
      have hbody := visited_inferBody hbodies.1 hbody
      have horelse := visited_inferBody hbodies.2 horelse
      refine (visited_inferTest htest).trans (hbody.trans (horelse.rule ?_))
      rintro hlater hearlier ⟨htest, htestTy⟩
      have hgrows := hbody.grows.trans horelse.grows
      simp only [Stmt.nestedBody, Stmt.nested, List.append_nil, allReady_cons, allReady_append]
      refine ⟨⟨?_, hgrows.settledType? htestTy⟩, hearlier.mono horelse.grows, hlater⟩
      simpa only [Stmt.nodes, Stmt.exprs, Expr.nodesAll, List.append_nil] using htest.mono hgrows
  | ret span value =>
      simp only [inferStmt, Pass.reaches_bind, Pass.reaches_pure] at hreach
      obtain ⟨value', middle, hvalue, stmt, _, hreturn, rfl, rfl⟩ := hreach
      simp only [Stmt.nestedBody, List.append_nil]
      exact (visited_inferPart hvalue).trans (visited_inferReturn hreturn)
  | expr span value =>
      simp only [inferStmt, Pass.reaches_bind, Pass.reaches_pure] at hreach
      obtain ⟨value', middle, hvalue, rfl, rfl⟩ := hreach
      refine (visited_inferExpr hvalue).rule fun hparts => ?_
      simp only [Stmt.nestedBody, Stmt.nested, List.append_nil, allReady_cons, allReady_nil,
        and_true]
      refine ⟨?_, trivial⟩
      simpa only [Stmt.nodes, Stmt.exprs, Expr.nodesAll, List.append_nil] using hparts
  | print span values dest newline =>
      simp only [inferStmt, Pass.reaches_bind, Pass.reaches_pure] at hreach
      obtain ⟨values', middle, hvalues, dest', _, hdest, rfl, rfl⟩ := hreach
      have hdest := visited_inferPart hdest
      refine (visited_inferPrinted hvalues).trans (hdest.rule ?_)
      rintro hdest' ⟨hvalues', hboxed⟩
      simp only [Stmt.nestedBody, Stmt.nested, List.append_nil, allReady_cons, allReady_nil,
        and_true]
      refine ⟨?_, fun value hvalue => hdest.grows.settledType? (hboxed value hvalue)⟩
      simp only [Stmt.nodes, Stmt.exprs, Expr.nodesAll_append, settled_append]
      exact ⟨hdest', hvalues'.mono hdest.grows⟩
  | global => simp only [inferStmt, not_reaches_refuse] at hreach
  | _ =>
      simp only [inferStmt, Pass.reaches_pure] at hreach
      obtain ⟨rfl, rfl⟩ := hreach
      exact .refl (allReady_cons.mpr ⟨⟨settled_nil, trivial⟩, allReady_nil⟩)
termination_by structural stmt

/-- Visiting a body of the source leaves statements that are ready. -/
theorem visited_inferBody {body results : List Stmt} {before after : Scope}
    (huncounted : ∀ inner ∈ Stmt.nestedBody body, inner.Uncounted)
    (hreach : Pass.Reaches (inferBody setting body) before results after) :
    Visited before (AllReady setting.options.indexType · (Stmt.nestedBody results)) after := by
  cases body with
  | nil =>
      simp only [inferBody, Pass.reaches_pure] at hreach
      obtain ⟨rfl, rfl⟩ := hreach
      exact .refl allReady_nil
  | cons stmt body =>
      obtain ⟨hstmt, hbody⟩ := List.forall_mem_append.mp huncounted
      simp only [inferBody, Pass.reaches_bind, Pass.reaches_pure] at hreach
      obtain ⟨stmts, middle, hstmts, rest, _, hrest, rfl, rfl⟩ := hreach
      have hrest := visited_inferBody hbody hrest
      refine (visited_inferStmt hstmt hstmts).trans (hrest.rule fun hlater hearlier => ?_)
      rw [Stmt.nestedBody_append]
      exact allReady_append.mpr ⟨hearlier.mono hrest.grows, hlater⟩
termination_by structural body

end

end KernelFront.Inference
