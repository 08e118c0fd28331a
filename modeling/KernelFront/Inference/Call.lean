import KernelFront.Inference.Scope

/-! # Rules for calls

What a call becomes depends on the type of the callee. Builtins are typed here; a compiled function
is called directly, its arguments converted to the types of its parameters; how another global or a
module's function is called is asked of the surroundings of the pass; everything else, and every
call with keyword arguments, goes through the host with boxed arguments.
-/

namespace KernelFront.Inference

/-- A call through the host. -/
def hostCall (span : Span) (func : Expr) (args : List Expr) (keywords : List (String × Expr))
    (ty : Ty) (table : SymbolTable) : Expr :=
  let box := Expr.convert table .object
  .objectCall (.typed span ty) (box func) (args.map box)
    (keywords.map fun (name, value) => (name, box value))

/-- A direct call of a compiled function. -/
def directCall (span : Span) (entry : EntryPoint) (args : List Expr) (table : SymbolTable) :
    Except TypeError Expr :=
  let params := entry.signature.args
  if params.length ≠ args.length then
    .error ⟨.arityMismatch entry.symbol params.length args.length, span⟩
  else
    .ok (.nativeCall (.typed span entry.signature.ret) entry.symbol entry.signature
      (List.zipWith (Expr.convert table) params args))

/-- The element type that an optional argument names: nothing without an argument, and an argument
that names no element type is an unknown one. -/
def dtypeArgument (table : SymbolTable) (arg : Option Expr) : Option (Option Ty) :=
  arg.map fun e =>
    match e.typeIn? table with
    | some (.dtype ty) => some ty
    | _ => none

/-- The result type of a function of the array module, `object` if it is not known. -/
def arrayFunctionType (attr : String) (args : List Expr) (keywords : List (String × Expr))
    (table : SymbolTable) : Ty :=
  match attr with
  | "zeros_like" | "ones_like" | "empty_like" =>
      let (array, rest) := match keywords.lookup "a" with
        | some array => (some array, args)
        | none => (args.head?, args.tail)
      match array.bind (Expr.typeIn? table) with
      | some (.array elem layout) =>
          match dtypeArgument table ((keywords.lookup "dtype").or rest.head?) with
          | none => .array elem layout
          | some (some elem) => .strided elem layout.ndim
          | some none => .object
      | _ => .object
  | "arange" =>
      match dtypeArgument table ((keywords.lookup "dtype").or args[3]?) with
      | none => .strided .int64 1
      | some (some elem) => .strided elem 1
      | some none => .object
  | _ => .object

variable (setting : Setting)

/-- A counted range; its bounds have the index type. -/
def countedRange (span : Span) (start stop step : Expr) (table : SymbolTable) : Expr :=
  let bound := Expr.convert table setting.options.indexType
  .range (.typed span .range) (bound start) (bound stop) (bound step)

/-- The length of an array: the first entry of its shape. -/
def arrayLength (span : Span) (array : Expr) (table : SymbolTable) : Except TypeError Expr := do
  match ← typeOf table array with
  | .array _ layout =>
      let shape := .arrayAttribute (.typed span (.carray .intp layout.ndim)) .shape array .load
      pure (.subscript (.typed span .intp) shape (indexConstant setting 0 span) .load)
  | _ => throw ⟨.unsupportedBuiltin "len", span⟩

/-- A call of a builtin. -/
def typeBuiltinCall (span : Span) (name : String) (args : List Expr)
    (keywords : List (String × Expr)) (table : SymbolTable) : Except TypeError Expr :=
  let arity (expected : String) : Except TypeError Expr :=
    .error ⟨.builtinArity name expected args.length, span⟩
  if keywords ≠ [] then
    .error ⟨.unsupported ("keyword arguments to `" ++ name ++ "`"), span⟩
  else match name with
    | "range" | "xrange" =>
        let constant (value : Int) := indexConstant setting value span
        match args with
        | [stop] => .ok (countedRange setting span (constant 0) stop (constant 1) table)
        | [start, stop] => .ok (countedRange setting span start stop (constant 1) table)
        | [start, stop, step] => .ok (countedRange setting span start stop step table)
        | _ => arity "1 to 3"
    | "len" =>
        match args with
        | [array] => arrayLength setting span array table
        | _ => arity "1"
    | "int" =>
        match args with
        | [value] => .ok (value.convert table setting.options.intBuiltin)
        | _ => arity "1"
    | "float" =>
        match args with
        | [value] => .ok (value.convert table setting.options.floatBuiltin)
        | _ => arity "1"
    | _ => .error ⟨.unsupportedBuiltin name, span⟩

/-- A call of a function that is not compiled together with its caller. Without keyword arguments
it may be called directly; if it is not, the result has type `ty`. -/
def typeExternalCall (span : Span) (callee : String) (func : Expr) (args : List Expr)
    (keywords : List (String × Expr)) (ty : SymbolTable → Ty) : Infer Expr := do
  let answer ←
    if keywords.isEmpty then do
      let types ← apply fun table => args.mapM (typeOf table)
      StateT.lift (Pass.ask callee types)
    else pure .host
  match answer with
  | .native entry => do
      report ("[infer] `" ++ callee ++ "` resolved to native " ++ entry.symbol)
      apply (directCall span entry args)
  | .host => do
      report ("[infer] `" ++ callee ++ "` called through the object protocol")
      apply fun table => .ok (hostCall span func args keywords (ty table) table)

/-- A call. -/
def typeCall (span : Span) (func : Expr) (args : List Expr) (keywords : List (String × Expr)) :
    Infer Expr := do
  let host : Infer Expr := apply fun table => .ok (hostCall span func args keywords .object table)
  match ← apply fun table => typeOf table func with
  | .builtin name => apply (typeBuiltinCall setting span name args keywords)
  | .function _ _ =>
      if keywords.isEmpty then
        let natives := (← get).natives
        match func.asName.bind fun name => natives.lookup name with
        | some entry => apply (directCall span entry args)
        | none => refuse (.internal "native callee without entry point") span
      else host
  | .global name => typeExternalCall span name func args keywords fun _ => .object
  | .moduleAttribute module attr isNumpy =>
      typeExternalCall span (module ++ "." ++ attr) func args keywords fun table =>
        if isNumpy then arrayFunctionType attr args keywords table else .object
  | _ => host

end KernelFront.Inference
