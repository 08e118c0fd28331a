import KernelFront.Compilation

/-! # Guarded compilation

Some steps of compilation have no result on all inputs: a difference of natural numbers, an element
of a list, a binding of a table. The passes are written so that they need no result where there is
none. Here they are written with guards: where such a step has no result, a fault stops the
compilation dead. Whatever needs no such step is taken from the passes as it is.
-/

namespace KernelFront

/-- What stops a compilation dead. -/
inductive Fault where
  /-- A difference would be negative. -/
  | underflow (minuend subtrahend : Nat)
  /-- A list has no element at a position. -/
  | position (index length : Nat)
  /-- A table has no such binding. -/
  | symbol (id : SymbolId) (size : Nat)
  deriving DecidableEq, Repr

/-- A computation that a fault may stop. -/
abbrev Guarded (m : Type → Type) : Type → Type := ExceptT Fault m

namespace Expr

/-- The symbols that an expression refers to, its parts apart. -/
def ownSymbols (e : Expr) : List SymbolId :=
  let bound := match e.binding with
    | some (.symbol id) => [id]
    | _ => []
  match e with
  | .deferredCoercion _ _ slot => slot :: bound
  | _ => bound

/-- The symbols that expressions refer to at every depth. -/
def symbolsAll (es : List Expr) : List SymbolId := (nodesAll es).flatMap ownSymbols

end Expr

namespace Guarded

open Inference

section Steps

variable {m : Type → Type} [Monad m] {α σ : Type}

/-- The difference of two numbers. -/
def difference (minuend subtrahend : Nat) : Guarded m Nat :=
  if subtrahend ≤ minuend then pure (minuend - subtrahend)
  else throw (.underflow minuend subtrahend)

/-- The element of a list at a position. -/
def element (xs : List α) (index : Nat) : Guarded m α :=
  match xs[index]? with
  | some x => pure x
  | none => throw (.position index xs.length)

/-- Take the element at a position out of a list. -/
def remove (xs : List α) (index : Nat) : Guarded m (α × List α) := do
  let x ← element xs index
  pure (x, xs.eraseIdx index)

/-- Look up bindings of a table. -/
def lookUp (table : SymbolTable) (ids : List SymbolId) : Guarded m Unit :=
  match ids.find? fun id => table.size ≤ id.index with
  | some id => throw (.symbol id table.size)
  | none => pure ()

/-- A step that may look up every symbol that its parts refer to, at any depth. -/
def watch (table : SymbolTable) (parts : List Expr) (step : m α) : Guarded m α := do
  lookUp table (Expr.symbolsAll parts)
  ExceptT.lift step

/-- Run a guarded computation that keeps a state. -/
def runState (pass : Guarded (StateT σ m) α) (state : σ) : Guarded m (α × σ) :=
  ExceptT.mk do
    let (outcome, state) ← pass.run.run state
    pure (outcome.map (·, state))

end Steps

/-! ## Inference -/

/-- A step of inference that may look up every symbol that its parts refer to. -/
def visit {α : Type} (parts : List Expr) (step : Infer α) : Guarded Infer α := do
  watch (← get).symbols parts step

variable (setting : Setting)

/-- Visit a name, whose binding is looked up if it has one. -/
def visitName (name : String) (access : Access) (span : Span) : Guarded Infer Expr := do
  let table := (← get).symbols
  lookUp table (table.lookup name).toList
  ExceptT.lift (Inference.visitName setting name access span)

/-- What the elements of an iterable are. -/
def elementType (iter : Expr) : Guarded Infer Ty := do
  match ← visit [iter] (apply fun table => typeOf table iter) with
  | .range => pure setting.options.indexType
  | .array elem layout =>
      if layout.ndim = 1 then pure elem
      else do
        let ndim ← difference layout.ndim 1
        pure (.array elem { layout with ndim })
  | ty => ExceptT.lift (refuse (.notIterable ty) iter.span)

/-- Whether a selector makes an axis. -/
def makesAxis (table : SymbolTable) (e : Expr) : Bool :=
  e.typeIn? table = some .newAxis || isNothing table e

/-- A subscript of a multidimensional array. -/
def arraySubscript (span : Span) (elem : Ty) (ndim : Nat) (value selector : Expr)
    (access : Access) : Guarded Infer Expr :=
  match selectors? selector with
  | none =>
      visit [value, selector] (apply fun table =>
        .ok (hostSubscript span value selector access table))
  | some selectors => do
      let newAxes ← visit [value, selector] (apply fun table =>
        .ok (selectors.countP (makesAxis table)))
      let consuming ← difference selectors.length newAxes
      let kinds ← visit [value, selector] (apply fun table => selectors.mapM (selectorKind table))
      let expanded := expandEllipses (ndim + 1 - consuming) (kinds.zip selectors)
      let selectorSpan := selectors.head?.elim span Expr.span
      let combine (dims : List Expr) : Expr := .extSlice (.typed selectorSpan .object) dims
      if 0 < kinds.count .other then
        visit [value, selector] (apply fun table =>
          .ok (hostSubscript span value (combine expanded) access table))
      else do
        let consumed ← difference expanded.length newAxes
        if ndim < consumed then ExceptT.lift (refuse (.tooManyIndices ndim consumed) span)
        else do
          let dims := expanded ++ List.replicate (ndim - consumed) (fullSlice selectorSpan)
          let rank ← difference (ndim + newAxes) (kinds.count .integer)
          pure (.subscript (.typed span (selectedType elem rank)) value (combine dims) access)

/-- A subscript of a value. -/
def typeSubscript (span : Span) (value selector : Expr) (access : Access) :
    Guarded Infer Expr := do
  match ← visit [value, selector] (apply fun table => typeOf table value) with
  | .array elem layout => arraySubscript span elem layout.ndim value selector access
  | _ => visit [value, selector] (apply (Inference.typeSubscript span value selector access))

/-- A call of a builtin, which takes its arguments from the front of the list. -/
def typeBuiltinCall (span : Span) (name : String) (args : List Expr)
    (keywords : List (String × Expr)) : Guarded Infer Expr :=
  let arity (expected : String) : Guarded Infer Expr :=
    ExceptT.lift (refuse (.builtinArity name expected args.length) span)
  let parts := args ++ keywords.map Prod.snd
  let range (start stop step : Expr) : Guarded Infer Expr :=
    visit parts (apply fun table => .ok (countedRange setting span start stop step table))
  let constant (value : Int) := indexConstant setting value span
  if keywords ≠ [] then
    ExceptT.lift (refuse (.unsupported ("keyword arguments to `" ++ name ++ "`")) span)
  else match name with
    | "range" | "xrange" =>
        if args.isEmpty || 3 < args.length then arity "1 to 3"
        else match args.length with
          | 1 => do
              let (stop, _) ← remove args 0
              range (constant 0) stop (constant 1)
          | 2 => do
              let (start, args) ← remove args 0
              let (stop, _) ← remove args 0
              range start stop (constant 1)
          | _ => do
              let (start, args) ← remove args 0
              let (stop, args) ← remove args 0
              let (step, _) ← remove args 0
              range start stop step
    | "len" =>
        if args.length ≠ 1 then arity "1"
        else do
          let (array, _) ← remove args 0
          visit parts (apply (arrayLength setting span array))
    | "int" =>
        if args.length ≠ 1 then arity "1"
        else do
          let (value, _) ← remove args 0
          visit parts (apply fun table => .ok (value.convert table setting.options.intBuiltin))
    | "float" =>
        if args.length ≠ 1 then arity "1"
        else do
          let (value, _) ← remove args 0
          visit parts (apply fun table => .ok (value.convert table setting.options.floatBuiltin))
    | _ => ExceptT.lift (refuse (.unsupportedBuiltin name) span)

/-- A call. -/
def typeCall (span : Span) (func : Expr) (args : List Expr) (keywords : List (String × Expr)) :
    Guarded Infer Expr := do
  let parts := func :: (args ++ keywords.map Prod.snd)
  match ← visit parts (apply fun table => typeOf table func) with
  | .builtin name => typeBuiltinCall setting span name args keywords
  | _ => visit parts (Inference.typeCall setting span func args keywords)

mutual

/-- Bind an expression and all its parts. -/
def inferExpr : Expr → Guarded Infer Expr
  | .name note id access => visitName setting id access note.span
  | .const note value => pure (literal value note.span)
  | .ellipsis note =>
      let var := Variable.constant .ellipsis .ellipsis
      pure (.ellipsis { span := note.span, binding := some (.value var) })
  | .binOp note left op right => do
      let left ← inferExpr left
      let right ← inferExpr right
      visit [left, right] (apply (typeBinOp note.span left op right))
  | .boolOp note op values =>
      if values.length ≠ 2 then
        ExceptT.lift (refuse (.unsupported "boolean operation with more than two operands")
          note.span)
      else do
        let values ← inferAll values
        visit values (apply fun table => .ok (typeBoolOp note.span op values table))
  | .unaryOp note op operand => do
      let operand ← inferExpr operand
      visit [operand] (apply (typeUnaryOp note.span op operand))
  | .compare note left [op] [right] => do
      let left ← inferExpr left
      let comparators ← inferAll [right]
      let right ← element comparators 0
      visit [left, right] (apply (typeCompare note.span left op right))
  | .compare note _ _ _ => ExceptT.lift (refuse (.unsupported "chained comparison") note.span)
  | .call note func args keywords => do
      let func ← inferExpr func
      let args ← inferAll args
      let keywords ← inferKeywords keywords
      typeCall setting note.span func args keywords
  | .attribute note value attr access => do
      let value ← inferExpr value
      visit [value] (apply (typeAttribute setting note.span value attr access))
  | .subscript note value selector access => do
      let value ← inferExpr value
      let selector ← inferExpr selector
      typeSubscript note.span value selector access
  | .index note value => do
      let value ← inferExpr value
      visit [value] (apply (typeIndex note.span value))
  | .slice note lower upper step => do
      let lower ← inferPart lower
      let upper ← inferPart upper
      let step ← inferPart step
      pure (.slice (.typed note.span .slice) lower upper step)
  | .extSlice note dims => do
      let dims ← inferAll dims
      pure (.extSlice (.typed note.span .object) dims)
  | .tuple note elts access => do
      let elts ← inferAll elts
      visit elts (apply fun table => .ok (typeTuple note.span elts access table))
  | .list note elts access => do
      let elts ← inferAll elts
      pure (typeList note.span elts access)
  | .dict note keys values => do
      let keys ← inferAll keys
      let values ← inferAll values
      visit (keys ++ values) (apply fun table => .ok (typeDict note.span keys values table))
  | .coercion note _ _ | .deferredCoercion note _ _ | .range note _ _ _ | .nativeCall note _ _ _
  | .objectCall note _ _ _ | .arrayAttribute note _ _ _ | .dataPointer note _
  | .objectTemp note _ _ | .temp note _ _ =>
      ExceptT.lift (refuse (.internal "lowered node in an input tree") note.span)

/-- Bind several expressions in order. -/
def inferAll : List Expr → Guarded Infer (List Expr)
  | [] => pure []
  | e :: es => do
      let e ← inferExpr e
      let es ← inferAll es
      pure (e :: es)

/-- Bind the values of keyword arguments in order. -/
def inferKeywords : List (String × Expr) → Guarded Infer (List (String × Expr))
  | [] => pure []
  | (name, e) :: keywords => do
      let e ← inferExpr e
      let keywords ← inferKeywords keywords
      pure ((name, e) :: keywords)

/-- Bind an optional part. -/
def inferPart : Option Expr → Guarded Infer (Option Expr)
  | none => pure none
  | some e => do
      let e ← inferExpr e
      pure (some e)

end

/-- Store elements in targets, one by one. -/
def storeAll (span : Span) : List Expr → List Expr → Guarded Infer (List Stmt)
  | target :: targets, value :: values => do
      let target ← inferExpr setting target
      let stmt ← visit [target, value] (typeStore target value span)
      let stmts ← storeAll span targets values
      pure (stmt :: stmts)
  | _, _ => pure []

/-- Unpack a visited value into as many targets. -/
def unpackInto (span : Span) (targets : List Expr) (value : Expr) : Guarded Infer (List Stmt) := do
  let size ← visit [value] (apply (unpackedSize value))
  if size ≠ targets.length then
    ExceptT.lift (refuse (.unpackArity size targets.length) value.span)
  else do
    let elements ← visit [value] (apply (unpackedElements setting value))
    storeAll setting span targets elements

/-- Unpack a visited value into the elements of a single display or into several targets. -/
def unpack (span : Span) (targets : List Expr) (value : Expr) : Guarded Infer (List Stmt) :=
  if targets.length = 1 then do
    match ← element targets 0 with
    | .tuple _ elts _ | .list _ elts _ => unpackInto setting span elts value
    | _ => unpackInto setting span targets value
  else unpackInto setting span targets value

/-- An assignment of a visited value. -/
def inferAssign (span : Span) (targets : List Expr) (value : Expr) : Guarded Infer (List Stmt) :=
  if targets.length ≠ 1 then unpack setting span targets value
  else do
    match ← element targets 0 with
    | .tuple _ _ _ | .list _ _ _ => unpack setting span targets value
    | _ => storeAll setting span targets [value]

/-- A return statement of a visited value. The binding of the result is looked up first. -/
def inferReturn (span : Span) (value : Option Expr) : Guarded Infer Stmt := do
  lookUp (← get).symbols [Scope.resultSlot]
  visit value.toList (Inference.inferReturn span value)

/-- The test of a loop or branch: a truth value. -/
def inferTest (test : Expr) : Guarded Infer Expr := do
  let test ← inferExpr setting test
  visit [test] (apply fun table => .ok (test.convert table .bool))

/-- The values of a print statement: boxed, one after the other. -/
def inferPrinted : List Expr → Guarded Infer (List Expr)
  | [] => pure []
  | value :: values => do
      let value ← inferExpr setting value
      let value ← visit [value] (apply fun table => .ok (value.convert table .object))
      let values ← inferPrinted values
      pure (value :: values)

mutual

/-- Bind a statement; the result may be several statements. -/
def inferStmt : Stmt → Guarded Infer (List Stmt)
  | .assign span targets value => do
      let value ← inferExpr setting value
      inferAssign setting span targets value
  | .augAssign span target op value => do
      let current := target.withAccess .load
      let value ← inferExpr setting (.binOp { span } current op value)
      storeAll setting span [target] [value]
  | .forIn span target iter body orelse index => do
      if orelse.isEmpty = false then
        ExceptT.lift (refuse (.unsupported "`else` clause on a for loop") span)
      else if target.asName.isNone then
        ExceptT.lift (refuse (.unsupported "for loop target that is not a plain name") target.span)
      else do
        let iter ← inferExpr setting iter
        let element ← elementType setting iter
        let target ← inferExpr setting target
        visit [target] (bindElement target element)
        let body ← inferBody body
        pure [.forIn span target iter body [] index]
  | .whileLoop span test body orelse => do
      if orelse.isEmpty = false then
        ExceptT.lift (refuse (.unsupported "`else` clause on a while loop") span)
      else do
        let test ← inferTest setting test
        let body ← inferBody body
        pure [.whileLoop span test body []]
  | .branch span test body orelse => do
      let test ← inferTest setting test
      let body ← inferBody body
      let orelse ← inferBody orelse
      pure [.branch span test body orelse]
  | .ret span value => do
      let value ← inferPart setting value
      let stmt ← inferReturn span value
      pure [stmt]
  | .expr span value => do
      let value ← inferExpr setting value
      pure [.expr span value]
  | .print span values dest newline => do
      let values ← inferPrinted setting values
      let dest ← inferPart setting dest
      pure [.print span values dest newline]
  | .global span _ => ExceptT.lift (refuse (.unsupported "`global` statement") span)
  | .pass span => pure [.pass span]
  | .break span => pure [.break span]
  | .continue span => pure [.continue span]

/-- Bind the statements of a body in order. -/
def inferBody : List Stmt → Guarded Infer (List Stmt)
  | [] => pure []
  | stmt :: body => do
      let stmts ← inferStmt stmt
      let rest ← inferBody body
      pure (stmts ++ rest)

end

/-- Infer a function for a signature. -/
def inferFunction (func : FunctionDef) (signature : Signature) : Guarded Pass Inferred := do
  if func.args.length ≠ signature.args.length then
    ExceptT.lift (throw
      ⟨.arityMismatch func.name func.args.length signature.args.length, func.span⟩)
  else do
    let infer : Guarded Infer (List Stmt × Ty) := do
      let body ← inferBody setting func.body
      lookUp (← get).symbols [Scope.resultSlot]
      let ret ← ExceptT.lift (settleResult signature.ret func.span)
      pure (body, ret)
    let ((body, ret), scope) ← runState infer (Scope.ofFunction func signature.args)
    let signature : FunctionType := ⟨signature.args, ret⟩
    ExceptT.lift (Pass.report .debug ("[infer] " ++ func.name ++ ": " ++ signature.text))
    pure { signature, symbols := scope.symbols, func := { func with body } }

/-! ## Lowering -/

/-- Fix the types of an expression and its parts. -/
def fixExpr (table : SymbolTable) (e : Expr) : Guarded (Except TypeError) Expr :=
  e.rebuildM fun e => watch table [e] (e.fixType table)

/-- Fix the types of all expressions of a function. -/
def fixTypes (table : SymbolTable) (func : FunctionDef) :
    Guarded (Except TypeError) FunctionDef := do
  let body ← Stmt.rebuildBodyM (fun e => watch table [e] (e.fixType table))
    (fun stmt => pure [stmt]) func.body
  match func.errorReturn with
  | some ⟨some value⟩ =>
      let value ← fixExpr table value
      pure { func with body, errorReturn := some ⟨some value⟩ }
  | _ => pure { func with body }

/-- A guarded computation that neither reports nor asks. -/
def ofExcept {α : Type} (outcome : Guarded (Except TypeError) α) : Guarded Pass α :=
  ExceptT.mk (Pass.ofExcept outcome.run)

/-- Fix the types of a function and report it. -/
def typed (table : SymbolTable) (func : FunctionDef) : Guarded Pass FunctionDef := do
  let func ← ofExcept (fixTypes table func)
  ExceptT.lift (Pass.report .debug ("[setter] " ++ func.name ++ ": types set"))
  pure func

/-- The function with all its loops counted. -/
def counted (table : SymbolTable) (indexType : Ty) (func : FunctionDef) :
    Guarded Pass FunctionDef := do
  let lower : Guarded Loops.Lowering (List Stmt) :=
    Stmt.rebuildBodyM pure
      (fun stmt => watch table stmt.exprs (Loops.lowerStmt table indexType stmt)) func.body
  let (body, temps) ← runState lower func.temps
  ExceptT.lift (Pass.report .debug
    ("[iterable] " ++ func.name ++ ": " ++ toString temps.length ++ " temporaries"))
  pure { func with body, temps }

/-- The function with its boxed values owned and its value after a failure set. -/
def box (table : SymbolTable) (signature : FunctionType) (func : FunctionDef) :
    Guarded (Except TypeError) FunctionDef := do
  let prepare : Guarded Boxing.Step (List Stmt) :=
    Stmt.rebuildBodyM (fun e => watch table [e] (Boxing.boxExpr table e))
      (fun stmt => watch table stmt.exprs (Boxing.boxStmt stmt)) func.body
  let (body, temps) ← runState prepare func.temps
  pure { func with
    body, temps
    errorReturn := some ⟨Boxing.failureValue signature.ret func.span⟩ }

/-- Prepare a function for the backend and report it. -/
def boxed (table : SymbolTable) (signature : FunctionType) (func : FunctionDef) :
    Guarded Pass FunctionDef := do
  let func ← ofExcept (box table signature func)
  let objects := func.temps.countP fun temp => temp.kind = .object
  ExceptT.lift (Pass.report .debug
    ("[specialize] " ++ func.name ++ ": " ++ toString objects ++ " object temporaries"))
  pure func

/-- Compile a function for a signature. -/
def compile (func : FunctionDef) (signature : Signature) : Guarded Pass Compiled := do
  ExceptT.lift (Pass.report .debug
    ("[pipeline] compiling `" ++ func.name ++ "` for (" ++ Ty.commaText signature.args ++ ")"))
  let inferred ← inferFunction setting func signature
  let typed ← typed inferred.symbols inferred.func
  let counted ← counted inferred.symbols setting.options.indexType typed
  let boxed ← boxed inferred.symbols inferred.signature counted
  ExceptT.lift (Pass.report .info
    ("[pipeline] compiled `" ++ func.name ++ "` as " ++ inferred.signature.text))
  pure { signature := inferred.signature, symbols := inferred.symbols, func := boxed }

end Guarded

end KernelFront
