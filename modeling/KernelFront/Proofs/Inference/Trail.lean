import KernelFront.Inference.Function
import KernelFront.Proofs.Dialogue
import Mathlib.Control.Monad.Writer

/-! # The trail of inference

Inference that leaves a trail: one entry for every act, in the order in which they are done, with
the scope that the act left. Expressions are visited, visited values are taken apart and stored in
places, and the result is given a type. The trail is of no consequence: without it, these passes are
the passes of inference.
-/

namespace KernelFront

namespace Inference

/-- Something that inference does for a function of the source. -/
inductive Act where
  /-- Expressions are visited from left to right. -/
  | visit (es : List Expr)
  /-- A visited value is taken apart for some places. -/
  | split (places : List Expr)
  /-- A value, or what a loop takes from its iterable, is stored in a visited place. -/
  | store (place : Expr)
  /-- The result is given a type. -/
  | result

/-- An act that was done. -/
structure Entry where
  act : Act
  /-- The type of what is stored or taken apart. -/
  ty : Option Ty
  /-- The scope that the act left. -/
  scope : Scope

/-- Inference that leaves a trail. -/
abbrev Trailing := WriterT (List Entry) Infer

namespace Trailing

variable {α : Type}

/-- Take a step and leave an entry. A type is read off the bindings before the step. -/
def mark (act : Act) (ty : SymbolTable → Option Ty) (step : Infer α) : Trailing α :=
  WriterT.mk do
    let before ← get
    let value ← step
    let scope ← get
    pure (value, [{ act, ty := ty before.symbols, scope }])

/-- Visit expressions. -/
def visit (es : List Expr) (step : Infer α) : Trailing α := mark (.visit es) (fun _ => none) step

/-- Take a step that is part of no act. -/
def quiet (step : Infer α) : Trailing α := liftM step

end Trailing

open Trailing (mark visit quiet)

variable (setting : Setting)

/-- Store elements in targets, one by one. -/
def trailStores (span : Span) : List Expr → List Expr → Trailing (List Stmt)
  | place :: places, element :: elements => do
      let target ← visit [place] (inferExpr setting place)
      let stmt ← mark (.store place) element.typeIn? (typeStore target element span)
      let stmts ← trailStores span places elements
      pure (stmt :: stmts)
  | _, _ => pure []

/-- Unpack a visited value into targets. -/
def trailUnpack (span : Span) (targets : List Expr) (value : Expr) : Trailing (List Stmt) := do
  let size ← mark (.split targets) value.typeIn? (apply (unpackedSize value))
  if size ≠ targets.length then quiet (refuse (.unpackArity size targets.length) value.span)
  else do
    let elements ← quiet (apply (unpackedElements setting value))
    trailStores setting span targets elements

/-- An assignment of a visited value. -/
def trailAssign (span : Span) (targets : List Expr) (value : Expr) : Trailing (List Stmt) :=
  match targets with
  | [.tuple _ elts _] | [.list _ elts _] => trailUnpack setting span elts value
  | [target] => trailStores setting span [target] [value]
  | targets => trailUnpack setting span targets value

mutual

/-- Bind a statement; the result may be several statements. -/
def trailStmt : Stmt → Trailing (List Stmt)
  | .assign span targets source => do
      let value ← visit [source] (inferExpr setting source)
      trailAssign setting span targets value
  | .augAssign span target op source => do
      let current : Expr := .binOp { span } (target.withAccess .load) op source
      let value ← visit [current] (inferExpr setting current)
      trailStores setting span [target] [value]
  | .forIn span place source body orelse index => do
      if orelse.isEmpty = false then
        quiet (refuse (.unsupported "`else` clause on a for loop") span)
      else if place.asName.isNone then
        quiet (refuse (.unsupported "for loop target that is not a plain name") place.span)
      else do
        let iter ← visit [source] (inferExpr setting source)
        let element ← quiet (apply (elementType setting iter))
        let target ← visit [place] (inferExpr setting place)
        mark (.store place) (fun _ => some element) (bindElement target element)
        let body ← trailBody body
        pure [.forIn span target iter body [] index]
  | .whileLoop span test body orelse => do
      if orelse.isEmpty = false then
        quiet (refuse (.unsupported "`else` clause on a while loop") span)
      else do
        let test ← visit [test] (inferTest setting test)
        let body ← trailBody body
        pure [.whileLoop span test body []]
  | .branch span test body orelse => do
      let test ← visit [test] (inferTest setting test)
      let body ← trailBody body
      let orelse ← trailBody orelse
      pure [.branch span test body orelse]
  | .ret span source => do
      let value ← visit source.toList (inferPart setting source)
      let stmt ← mark .result (fun _ => none) (inferReturn span value)
      pure [stmt]
  | .expr span source => do
      let value ← visit [source] (inferExpr setting source)
      pure [.expr span value]
  | .print span sources place newline => do
      let values ← visit sources (inferPrinted setting sources)
      let dest ← visit place.toList (inferPart setting place)
      pure [.print span values dest newline]
  | .global span _ => quiet (refuse (.unsupported "`global` statement") span)
  | .pass span => pure [.pass span]
  | .break span => pure [.break span]
  | .continue span => pure [.continue span]

/-- Bind the statements of a body in order. -/
def trailBody : List Stmt → Trailing (List Stmt)
  | [] => pure []
  | stmt :: body => do
      let stmts ← trailStmt stmt
      let rest ← trailBody body
      pure (stmts ++ rest)

end

/-- Bind the body of a function and settle its result. -/
def trailResult (func : FunctionDef) (declared : Option Ty) : Trailing (List Stmt × Ty) := do
  let body ← trailBody setting func.body
  let ret ← mark .result (fun _ => none) (settleResult declared func.span)
  pure (body, ret)

/-- Infer a function for a signature. -/
def trailFunction (func : FunctionDef) (signature : Signature) : Pass (Inferred × List Entry) := do
  if func.args.length ≠ signature.args.length then
    throw ⟨.arityMismatch func.name func.args.length signature.args.length, func.span⟩
  else do
    let infer := (trailResult setting func signature.ret).run
    let (((body, ret), trail), scope) ← infer.run (Scope.ofFunction func signature.args)
    let signature : FunctionType := ⟨signature.args, ret⟩
    Pass.report .debug ("[infer] " ++ func.name ++ ": " ++ signature.text)
    pure ({ signature, symbols := scope.symbols, func := { func with body } }, trail)

/-! ## The acts of a source -/

/-- Store in a place. -/
def storeActs (place : Expr) : List Act := [.visit [place], .store place]

/-- Take a value apart and store in places, one after the other. -/
def unpackActs (places : List Expr) : List Act := .split places :: places.flatMap storeActs

/-- Store a visited value. -/
def assignActs : List Expr → List Act
  | [.tuple _ elts _] | [.list _ elts _] => unpackActs elts
  | [target] => storeActs target
  | targets => unpackActs targets

mutual

/-- What inference does for a statement, in order: the value comes before the places that it is
stored in, the iterable and then the target of a loop before its body, a test before what depends on
it. -/
def stmtActs : Stmt → List Act
  | .assign _ targets value => .visit [value] :: assignActs targets
  | .augAssign span target op value =>
      .visit [.binOp { span } (target.withAccess .load) op value] :: storeActs target
  | .forIn _ target iter body orelse _ =>
      .visit [iter] :: storeActs target ++ bodyActs body ++ bodyActs orelse
  | .whileLoop _ test body orelse | .branch _ test body orelse =>
      .visit [test] :: bodyActs body ++ bodyActs orelse
  | .ret _ value => [.visit value.toList, .result]
  | .expr _ value => [.visit [value]]
  | .print _ values dest _ => [.visit values, .visit dest.toList]
  | .global _ _ | .pass _ | .break _ | .continue _ => []

/-- What inference does for a body. -/
def bodyActs : List Stmt → List Act
  | [] => []
  | stmt :: body => stmtActs stmt ++ bodyActs body

end

/-- What inference does for a function: it settles the result when the body is done. -/
def functionActs (func : FunctionDef) : List Act := bodyActs func.body ++ [.result]

/-! ## The trail is of no consequence -/

namespace Trailing

variable {α β : Type} {setting : Setting}

/-- The pass without its trail. -/
def erase (pass : Trailing α) : Infer α := Prod.fst <$> pass.run

@[simp] theorem erase_pure (value : α) : erase (pure value) = pure value := by
  exact map_pure Prod.fst (value, ([] : List Entry))

@[simp] theorem erase_bind (pass : Trailing α) (f : α → Trailing β) :
    erase (pass >>= f) = erase pass >>= fun value => erase (f value) := by
  have hrun : (pass >>= f).run = pass.run >>= fun noted =>
      (fun rest => (rest.1, noted.2 ++ rest.2)) <$> (f noted.1).run := rfl
  simp only [erase, hrun, map_bind, Functor.map_map, bind_map_left]

theorem run_mark (act : Act) (ty : SymbolTable → Option Ty) (step : Infer α) :
    (mark act ty step).run = (do
      let before ← get
      let value ← step
      let scope ← get
      pure (value, [{ act, ty := ty before.symbols, scope }])) :=
  rfl

@[simp] theorem erase_mark (act : Act) (ty : SymbolTable → Option Ty) (step : Infer α) :
    erase (mark act ty step) = step := by
  refine StateT.ext fun before => ?_
  simp [erase, run_mark]

@[simp] theorem erase_visit (es : List Expr) (step : Infer α) : erase (visit es step) = step :=
  erase_mark _ _ step

@[simp] theorem erase_quiet (step : Infer α) : erase (quiet step) = step := by
  have hrun : (quiet step).run = (fun value => (value, ([] : List Entry))) <$> step := rfl
  simp only [erase, hrun, Functor.map_map, id_map']

/-- Some answers bring the pass from one scope to another and leave this trail. -/
def Runs (pass : Trailing α) (before : Scope) (value : α) (trail : List Entry) (after : Scope) :
    Prop :=
  Pass.Reaches pass.run before (value, trail) after

variable {before after : Scope} {trail : List Entry}

@[simp] theorem runs_pure {value result : α} :
    Runs (pure value) before result trail after ↔
      result = value ∧ trail = [] ∧ after = before := by
  have hrun : (pure value : Trailing α).run = pure (value, ([] : List Entry)) := rfl
  simp only [Runs, hrun, Pass.reaches_pure, Prod.mk.injEq, and_assoc]

@[simp] theorem runs_bind {pass : Trailing α} {f : α → Trailing β} {result : β} :
    Runs (pass >>= f) before result trail after ↔
      ∃ value first middle rest, Runs pass before value first middle ∧
        Runs (f value) middle result rest after ∧ trail = first ++ rest := by
  have hrun : (pass >>= f).run = pass.run >>= fun noted =>
      (fun rest => (rest.1, noted.2 ++ rest.2)) <$> (f noted.1).run := rfl
  simp only [Runs, hrun, map_eq_pure_bind, Pass.reaches_bind, Pass.reaches_pure, Prod.mk.injEq]
  constructor
  · rintro ⟨⟨value, first⟩, middle, hfirst, ⟨_, rest⟩, _, hrest, ⟨rfl, rfl⟩, rfl⟩
    exact ⟨value, first, middle, rest, hfirst, hrest, rfl⟩
  · rintro ⟨value, first, middle, rest, hfirst, hrest, rfl⟩
    exact ⟨_, middle, hfirst, _, _, hrest, ⟨rfl, rfl⟩, rfl⟩

@[simp] theorem runs_mark {act : Act} {ty : SymbolTable → Option Ty} {step : Infer α} {value : α} :
    Runs (mark act ty step) before value trail after ↔
      Pass.Reaches step before value after ∧
        trail = [{ act, ty := ty before.symbols, scope := after }] := by
  simp only [Runs, run_mark, Pass.reaches_bind, Pass.reaches_get, Pass.reaches_pure,
    Prod.mk.injEq]
  constructor
  · rintro ⟨_, _, ⟨rfl, rfl⟩, _, _, hstep, _, _, ⟨rfl, rfl⟩, ⟨rfl, rfl⟩, rfl⟩
    exact ⟨hstep, rfl⟩
  · rintro ⟨hstep, rfl⟩
    exact ⟨_, _, ⟨rfl, rfl⟩, _, _, hstep, _, _, ⟨rfl, rfl⟩, ⟨rfl, rfl⟩, rfl⟩

@[simp] theorem runs_visit {es : List Expr} {step : Infer α} {value : α} :
    Runs (visit es step) before value trail after ↔
      Pass.Reaches step before value after ∧
        trail = [{ act := .visit es, ty := none, scope := after }] :=
  runs_mark

@[simp] theorem runs_quiet {step : Infer α} {value : α} :
    Runs (quiet step) before value trail after ↔
      Pass.Reaches step before value after ∧ trail = [] := by
  have hrun : (quiet step).run = (fun value => (value, ([] : List Entry))) <$> step := rfl
  simp only [Runs, hrun, map_eq_pure_bind, Pass.reaches_bind, Pass.reaches_pure, Prod.mk.injEq]
  constructor
  · rintro ⟨_, _, hstep, ⟨rfl, rfl⟩, rfl⟩
    exact ⟨hstep, rfl⟩
  · rintro ⟨hstep, rfl⟩
    exact ⟨_, _, hstep, ⟨rfl, rfl⟩, rfl⟩

/-- A pass goes through without its trail exactly if it does with some trail. -/
theorem reaches_erase_iff {pass : Trailing α} {value : α} :
    Pass.Reaches (erase pass) before value after ↔ ∃ trail, Runs pass before value trail after := by
  simp only [erase, Runs, map_eq_pure_bind, Pass.reaches_bind, Pass.reaches_pure]
  constructor
  · rintro ⟨⟨_, trail⟩, _, hreach, rfl, rfl⟩
    exact ⟨trail, hreach⟩
  · rintro ⟨trail, hreach⟩
    exact ⟨_, _, hreach, rfl, rfl⟩

end Trailing

variable {setting}

theorem erase_trailStores (span : Span) (places elements : List Expr) :
    (trailStores setting span places elements).erase = storeAll setting span places elements := by
  induction places generalizing elements with
  | nil => simp [trailStores, storeAll]
  | cons place places ih =>
      cases elements with
      | nil => simp [trailStores, storeAll]
      | cons element elements => simp [trailStores, storeAll, ih]

theorem erase_trailUnpack (span : Span) (targets : List Expr) (value : Expr) :
    (trailUnpack setting span targets value).erase = unpack setting span targets value := by
  simp only [trailUnpack, unpack, Trailing.erase_bind, Trailing.erase_mark]
  refine bind_congr fun size => ?_
  split
  · exact Trailing.erase_quiet _
  · simp only [Trailing.erase_bind, Trailing.erase_quiet, erase_trailStores]

theorem erase_trailAssign (span : Span) (targets : List Expr) (value : Expr) :
    (trailAssign setting span targets value).erase = inferAssign setting span targets value := by
  rcases targets with _ | ⟨target, _ | ⟨other, targets⟩⟩
  · exact erase_trailUnpack span [] value
  · cases target with
    | tuple note elts access => exact erase_trailUnpack span elts value
    | list note elts access => exact erase_trailUnpack span elts value
    | _ => exact erase_trailStores span _ _
  · simpa only [trailAssign, inferAssign] using
      erase_trailUnpack span (target :: other :: targets) value

mutual

theorem erase_trailStmt (stmt : Stmt) :
    (trailStmt setting stmt).erase = inferStmt setting stmt := by
  cases stmt with
  | assign span targets source => simp [trailStmt, inferStmt, erase_trailAssign]
  | augAssign span target op source => simp [trailStmt, inferStmt, erase_trailStores]
  | forIn span place source body orelse index =>
      simp only [trailStmt, inferStmt]
      split
      · exact Trailing.erase_quiet _
      · split
        · exact Trailing.erase_quiet _
        · simp [erase_trailBody body]
  | whileLoop span test body orelse =>
      simp only [trailStmt, inferStmt]
      split
      · exact Trailing.erase_quiet _
      · simp [erase_trailBody body]
  | branch span test body orelse =>
      simp [trailStmt, inferStmt, erase_trailBody body, erase_trailBody orelse]
  | _ => simp [trailStmt, inferStmt]
termination_by structural stmt

/-- Without the trail, a body is bound as it is by inference. -/
theorem erase_trailBody (body : List Stmt) :
    (trailBody setting body).erase = inferBody setting body := by
  cases body with
  | nil => simp [trailBody, inferBody]
  | cons stmt body => simp [trailBody, inferBody, erase_trailStmt stmt, erase_trailBody body]
termination_by structural body

end

variable {func : FunctionDef} {signature : Signature} {inferred : Inferred} {trail : List Entry}

/-- What inferring a function with a trail comes to. -/
theorem succeeds_trailFunction_iff :
    Pass.Succeeds (trailFunction setting func signature) (inferred, trail) ↔
      func.args.length = signature.args.length ∧ ∃ body ret after,
        (trailResult setting func signature.ret).Runs (Scope.ofFunction func signature.args)
          (body, ret) trail after ∧
        inferred = { signature := ⟨signature.args, ret⟩, symbols := after.symbols,
                     func := { func with body } } := by
  unfold trailFunction
  split
  next hlength => simp [hlength]
  next hlength =>
    simp only [Pass.succeeds_bind, Pass.succeeds_pure, Prod.mk.injEq, Trailing.Runs, Pass.Reaches]
    refine ⟨?_, ?_⟩
    · rintro ⟨⟨⟨⟨body, ret⟩, _⟩, after⟩, hrun, _, -, rfl, rfl⟩
      exact ⟨Decidable.not_not.mp hlength, body, ret, after, hrun, rfl⟩
    · rintro ⟨-, body, ret, after, hrun, rfl⟩
      exact ⟨_, hrun, (), Pass.succeeds_report, rfl, rfl⟩

/-- A function is inferred exactly if it is inferred with some trail. -/
theorem succeeds_inferFunction_iff_trail :
    Pass.Succeeds (inferFunction setting func signature) inferred ↔
      ∃ trail, Pass.Succeeds (trailFunction setting func signature) (inferred, trail) := by
  have herase (declared : Option Ty) : (trailResult setting func declared).erase = (do
      let body ← inferBody setting func.body
      let ret ← settleResult declared func.span
      pure (body, ret)) := by
    simp [trailResult, erase_trailBody]
  simp only [succeeds_trailFunction_iff]
  unfold inferFunction
  split
  next hlength => simp [hlength]
  next hlength =>
    simp only [← herase, Pass.succeeds_bind, Pass.succeeds_pure]
    constructor
    · rintro ⟨⟨⟨body, ret⟩, after⟩, hrun, _, -, rfl⟩
      obtain ⟨trail, hruns⟩ := Trailing.reaches_erase_iff.mp hrun
      exact ⟨trail, Decidable.not_not.mp hlength, body, ret, after, hruns, rfl⟩
    · rintro ⟨trail, -, body, ret, after, hruns, rfl⟩
      exact ⟨_, Trailing.reaches_erase_iff.mpr ⟨trail, hruns⟩, (), Pass.succeeds_report, rfl⟩

end Inference

end KernelFront
