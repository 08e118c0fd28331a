import KernelFront.Inference.Function
import KernelFront.Proofs.Dialogue

/-! # Inference with a journal

Inference that writes down, as it goes, what it stores in places and what it unpacks. The journal is
of no consequence: without it, these passes are the passes of inference.
-/

namespace KernelFront

namespace Inference

/-- Something that inference does to the values of places. -/
inductive Event where
  /-- A visited value is stored in a place of the source by the statement that comes of it. -/
  | store (place value : Expr) (stmt : Stmt)
  /-- An expression of the source is unpacked into visited elements. -/
  | unpack (source : Expr) (elements : List Expr)
  /-- A loop lets a place of the source take elements of a type. -/
  | iterate (place : Expr) (element : Ty)

variable (setting : Setting)

/-- Store elements in targets, one by one. -/
def journalStores (span : Span) : List Expr → List Expr → Infer (List Stmt × List Event)
  | place :: places, element :: elements => do
      let target ← inferExpr setting place
      let stmt ← typeStore target element span
      let rest ← journalStores span places elements
      pure (stmt :: rest.1, .store place element stmt :: rest.2)
  | _, _ => pure ([], [])

/-- Unpack a visited value into targets. -/
def journalUnpack (span : Span) (targets : List Expr) (source value : Expr) :
    Infer (List Stmt × List Event) := do
  let size ← apply (unpackedSize value)
  if size ≠ targets.length then refuse (.unpackArity size targets.length) value.span
  else do
    let elements ← apply (unpackedElements setting value)
    let stores ← journalStores setting span targets elements
    pure (stores.1, .unpack source elements :: stores.2)

/-- An assignment of a visited value. -/
def journalAssign (span : Span) (targets : List Expr) (source value : Expr) :
    Infer (List Stmt × List Event) :=
  match targets with
  | [.tuple _ elts _] | [.list _ elts _] => journalUnpack setting span elts source value
  | [target] => journalStores setting span [target] [value]
  | targets => journalUnpack setting span targets source value

mutual

/-- Bind a statement. Only assignments and loops do something to places. -/
def journalStmt : Stmt → Infer (List Stmt × List Event)
  | .assign span targets source => do
      let value ← inferExpr setting source
      journalAssign setting span targets source value
  | .augAssign span target op source => do
      let current := target.withAccess .load
      let value ← inferExpr setting (.binOp { span } current op source)
      journalStores setting span [target] [value]
  | .forIn span place iter body orelse index => do
      if orelse.isEmpty = false then refuse (.unsupported "`else` clause on a for loop") span
      else if place.asName.isNone then
        refuse (.unsupported "for loop target that is not a plain name") place.span
      else do
        let iter ← inferExpr setting iter
        let element ← apply (elementType setting iter)
        let target ← inferExpr setting place
        bindElement target element
        let body ← journalBody body
        pure ([.forIn span target iter body.1 [] index], .iterate place element :: body.2)
  | .whileLoop span test body orelse => do
      if orelse.isEmpty = false then refuse (.unsupported "`else` clause on a while loop") span
      else do
        let test ← inferTest setting test
        let body ← journalBody body
        pure ([.whileLoop span test body.1 []], body.2)
  | .branch span test body orelse => do
      let test ← inferTest setting test
      let body ← journalBody body
      let orelse ← journalBody orelse
      pure ([.branch span test body.1 orelse.1], body.2 ++ orelse.2)
  | stmt => do
      let stmts ← inferStmt setting stmt
      pure (stmts, [])

/-- Bind the statements of a body in order. -/
def journalBody : List Stmt → Infer (List Stmt × List Event)
  | [] => pure ([], [])
  | stmt :: body => do
      let stmts ← journalStmt stmt
      let rest ← journalBody body
      pure (stmts.1 ++ rest.1, stmts.2 ++ rest.2)

end

/-- Infer a function for a signature. -/
def journalFunction (func : FunctionDef) (signature : Signature) :
    Pass (Inferred × List Event) := do
  if func.args.length ≠ signature.args.length then
    throw ⟨.arityMismatch func.name func.args.length signature.args.length, func.span⟩
  else do
    let infer : Infer ((List Stmt × List Event) × Ty) := do
      let body ← journalBody setting func.body
      let ret ← settleResult signature.ret func.span
      pure (body, ret)
    let ((body, ret), scope) ← infer.run (Scope.ofFunction func signature.args)
    let signature : FunctionType := ⟨signature.args, ret⟩
    Pass.report .debug ("[infer] " ++ func.name ++ ": " ++ signature.text)
    pure ({ signature, symbols := scope.symbols, func := { func with body := body.1 } }, body.2)

/-! ## The journal is of no consequence -/

variable {setting}

section Erasure

variable {m : Type → Type} [Monad m] [LawfulMonad m] {α β γ δ : Type}

/-- A step whose journal goes unread. -/
theorem bind_of_erase {pass : m (α × β)} {erased : m α} {f : α → m γ}
    (herase : Prod.fst <$> pass = erased) : (pass >>= fun noted => f noted.1) = erased >>= f := by
  rw [← herase, bind_map_left]

theorem erase_bind {pass : m α} {f : α → m (β × γ)} {erased : α → m β}
    (herase : ∀ value, Prod.fst <$> f value = erased value) :
    Prod.fst <$> (pass >>= f) = pass >>= erased := by
  rw [map_bind]
  exact bind_congr herase

end Erasure

theorem erase_refuse {β γ : Type} {cause : Cause} {span : Span} :
    Prod.fst <$> (refuse cause span : Infer (β × γ)) = refuse cause span :=
  rfl

theorem erase_journalStores (span : Span) (places elements : List Expr) :
    Prod.fst <$> journalStores setting span places elements =
      storeAll setting span places elements := by
  induction places generalizing elements with
  | nil => simp [journalStores, storeAll]
  | cons place places ih =>
      cases elements with
      | nil => simp [journalStores, storeAll]
      | cons element elements =>
          simp only [journalStores, storeAll]
          refine erase_bind fun target => erase_bind fun stmt => ?_
          simp only [map_bind, map_pure]
          exact bind_of_erase (f := fun stmts => pure (stmt :: stmts)) (ih elements)

theorem erase_journalUnpack (span : Span) (targets : List Expr) (source value : Expr) :
    Prod.fst <$> journalUnpack setting span targets source value =
      unpack setting span targets value := by
  unfold journalUnpack unpack
  refine erase_bind fun size => ?_
  split
  · exact erase_refuse
  · refine erase_bind fun elements => ?_
    simp only [map_bind, map_pure]
    rw [bind_of_erase (f := pure) (erase_journalStores span targets elements), bind_pure]

theorem erase_journalAssign (span : Span) (targets : List Expr) (source value : Expr) :
    Prod.fst <$> journalAssign setting span targets source value =
      inferAssign setting span targets value := by
  rcases targets with _ | ⟨target, _ | ⟨other, targets⟩⟩
  · exact erase_journalUnpack span [] source value
  · cases target with
    | tuple note elts access => exact erase_journalUnpack span elts source value
    | list note elts access => exact erase_journalUnpack span elts source value
    | _ => exact erase_journalStores span _ _
  · simpa only [journalAssign, inferAssign] using
      erase_journalUnpack span (target :: other :: targets) source value

mutual

theorem erase_journalStmt (stmt : Stmt) :
    Prod.fst <$> journalStmt setting stmt = inferStmt setting stmt := by
  cases stmt with
  | assign span targets source =>
      simp only [journalStmt, inferStmt]
      exact erase_bind fun value => erase_journalAssign span targets source value
  | augAssign span target op source =>
      simp only [journalStmt, inferStmt]
      exact erase_bind fun value => erase_journalStores span [target] [value]
  | forIn span place iter body orelse index =>
      simp only [journalStmt, inferStmt]
      split
      · exact erase_refuse
      · split
        · exact erase_refuse
        · refine erase_bind fun iter => erase_bind fun element => erase_bind fun target => ?_
          refine erase_bind fun _ => ?_
          simp only [map_bind, map_pure]
          exact bind_of_erase (f := fun body => pure [Stmt.forIn span target iter body [] index])
            (erase_journalBody body)
  | whileLoop span test body orelse =>
      simp only [journalStmt, inferStmt]
      split
      · exact erase_refuse
      · refine erase_bind fun test => ?_
        simp only [map_bind, map_pure]
        exact bind_of_erase (f := fun body => pure [Stmt.whileLoop span test body []])
          (erase_journalBody body)
  | branch span test body orelse =>
      simp only [journalStmt, inferStmt]
      refine erase_bind fun test => ?_
      rw [map_bind, ← erase_journalBody body, bind_map_left]
      refine bind_congr fun body => ?_
      simp only [map_bind, map_pure]
      exact bind_of_erase (f := fun orelse => pure [Stmt.branch span test body.1 orelse])
        (erase_journalBody orelse)
  | _ =>
      simp only [journalStmt, map_bind, map_pure, bind_pure]
termination_by structural stmt

/-- Without the journal, a body is bound as it is by inference. -/
theorem erase_journalBody (body : List Stmt) :
    Prod.fst <$> journalBody setting body = inferBody setting body := by
  cases body with
  | nil => simp [journalBody, inferBody]
  | cons stmt body =>
      simp only [journalBody, inferBody]
      rw [map_bind, ← erase_journalStmt stmt, bind_map_left]
      refine bind_congr fun stmts => ?_
      simp only [map_bind, map_pure]
      exact bind_of_erase (f := fun rest => pure (stmts.1 ++ rest)) (erase_journalBody body)
termination_by structural body

end

theorem reaches_inferBody_iff {body results : List Stmt} {before after : Scope} :
    Pass.Reaches (inferBody setting body) before results after ↔
      ∃ events, Pass.Reaches (journalBody setting body) before (results, events) after := by
  rw [← erase_journalBody, map_eq_pure_bind]
  simp only [Pass.reaches_bind, Pass.reaches_pure]
  constructor
  · rintro ⟨⟨_, events⟩, _, hreach, rfl, rfl⟩
    exact ⟨events, hreach⟩
  · rintro ⟨events, hreach⟩
    exact ⟨_, _, hreach, rfl, rfl⟩

/-- A function is inferred exactly if it is inferred with some journal. -/
theorem succeeds_inferFunction_iff {func : FunctionDef} {signature : Signature}
    {inferred : Inferred} :
    Pass.Succeeds (inferFunction setting func signature) inferred ↔
      ∃ events, Pass.Succeeds (journalFunction setting func signature) (inferred, events) := by
  unfold inferFunction journalFunction
  split
  · simp
  · simp only [Pass.succeeds_bind]
    constructor
    · rintro ⟨⟨⟨body, ret⟩, scope⟩, hrun, _, hreport, hinferred⟩
      obtain rfl := Pass.succeeds_pure.mp hinferred
      change Pass.Reaches _ _ _ _ at hrun
      simp only [Pass.reaches_bind, Pass.reaches_pure, Prod.mk.injEq] at hrun
      obtain ⟨_, middle, hbody, _, _, hret, ⟨rfl, rfl⟩, rfl⟩ := hrun
      obtain ⟨events, hbody⟩ := reaches_inferBody_iff.mp hbody
      refine ⟨events, (((body, events), ret), scope), ?_, _, hreport, Pass.succeeds_pure.mpr rfl⟩
      change Pass.Reaches _ _ _ _
      simp only [Pass.reaches_bind, Pass.reaches_pure]
      exact ⟨_, middle, hbody, _, _, hret, rfl, rfl⟩
    · rintro ⟨events, ⟨⟨body, ret⟩, scope⟩, hrun, _, hreport, hinferred⟩
      obtain ⟨rfl, rfl⟩ := Prod.mk.inj (Pass.succeeds_pure.mp hinferred)
      change Pass.Reaches _ _ _ _ at hrun
      simp only [Pass.reaches_bind, Pass.reaches_pure, Prod.mk.injEq] at hrun
      obtain ⟨_, middle, hbody, _, _, hret, ⟨rfl, rfl⟩, rfl⟩ := hrun
      refine ⟨((body.1, ret), scope), ?_, _, hreport, Pass.succeeds_pure.mpr rfl⟩
      change Pass.Reaches _ _ _ _
      simp only [Pass.reaches_bind, Pass.reaches_pure]
      exact ⟨_, middle, reaches_inferBody_iff.mpr ⟨_, hbody⟩, _, _, hret, rfl, rfl⟩

end Inference

end KernelFront
