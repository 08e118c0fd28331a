import KernelFront.Proofs.Inference.Tracking

/-! # Calls of functions that are not compiled here

A call of a global or of a module's function is typed when it is known how its callee is called. If
it has no keyword arguments, this is asked of the surroundings, once for each call; the answer alone
decides what the call becomes.
-/

namespace KernelFront.Inference

variable {setting : Setting} {scope : Scope} {span : Span} {func : Expr} {args : List Expr}
  {callee : String} {types : List Ty} {ty : Ty}

/-- A callee of this type is a function of the host of this name, and a call of it through the host
has this result type. -/
inductive IsExternal (args : List Expr) (table : SymbolTable) : Ty → String → Ty → Prop where
  | global (name : String) : IsExternal args table (.global name) name .object
  | moduleFunction (module attr : String) :
      IsExternal args table (.moduleAttribute module attr false) (module ++ "." ++ attr) .object
  | arrayFunction (module attr : String) :
      IsExternal args table (.moduleAttribute module attr true) (module ++ "." ++ attr)
        (arrayFunctionType attr args [] table)

/-- How a call is typed when it is known how its callee is called. -/
def resolvedCall (span : Span) (func : Expr) (args : List Expr) (ty : Ty) (table : SymbolTable) :
    Resolution → Except TypeError Expr
  | .native entry => directCall span entry args table
  | .host => .ok (hostCall span func args [] ty table)

/-- What is reported when it is known how a callee is called. -/
def resolutionMessage (callee : String) : Resolution → Message
  | .native entry => ⟨.debug, "[infer] `" ++ callee ++ "` resolved to native " ++ entry.symbol⟩
  | .host => ⟨.debug, "[infer] `" ++ callee ++ "` called through the object protocol"⟩

theorem mapM_typeOf {table : SymbolTable}
    (hargs : args.map (Expr.typeIn? table) = types.map some) :
    args.mapM (typeOf table) = .ok types := by
  induction args generalizing types with
  | nil =>
      cases types with
      | nil => rfl
      | cons => cases hargs
  | cons arg args ih =>
      cases types with
      | nil => cases hargs
      | cons type types =>
          obtain ⟨harg, hargs⟩ := List.cons.inj hargs
          simp [List.mapM_cons, typeOf_eq_ok.mpr harg, ih hargs]

theorem run_apply (rule : SymbolTable → Except TypeError Expr) (scope : Scope) :
    (apply rule).run scope =
      Pass.ofExcept ((rule scope.symbols).map fun result => (result, scope)) := by
  cases hrule : rule scope.symbols with
  | error e => exact run_apply_error hrule
  | ok result => exact run_apply_ok hrule

/-- A call whose arguments have types asks how its callee is called with arguments of these
types. -/
theorem run_typeExternalCall {result : SymbolTable → Ty}
    (hargs : args.map (Expr.typeIn? scope.symbols) = types.map some) :
    ((typeExternalCall span callee func args [] result).run scope).run =
      .ask callee types fun answer => .report (resolutionMessage callee answer)
        (.done ((resolvedCall span func args (result scope.symbols) scope.symbols answer).map
          fun call => (call, scope))) := by
  have htypes : (apply fun table => args.mapM (typeOf table)).run scope = pure (types, scope) :=
    run_apply_ok (mapM_typeOf hargs)
  simp only [typeExternalCall, List.isEmpty_nil, if_true, StateT.run_bind, htypes, pure_bind]
  refine congrArg (Dialogue.ask callee types) (funext fun answer => ?_)
  cases answer with
  | host => rfl
  | native entry =>
      change Dialogue.report _ ((apply (directCall span entry args)).run scope).run = _
      rw [run_apply]
      rfl

/-- A call of a function of the host whose arguments have types asks how the function is called with
arguments of these types. -/
theorem run_typeCall {own : Ty} (hargs : args.map (Expr.typeIn? scope.symbols) = types.map some)
    (hfunc : func.typeIn? scope.symbols = some own)
    (hexternal : IsExternal args scope.symbols own callee ty) :
    ((typeCall setting span func args []).run scope).run =
      .ask callee types fun answer => .report (resolutionMessage callee answer)
        (.done ((resolvedCall span func args ty scope.symbols answer).map
          fun call => (call, scope))) := by
  have hown : (apply fun table => typeOf table func).run scope = pure (own, scope) :=
    run_apply_ok (typeOf_eq_ok.mpr hfunc)
  simp only [typeCall, StateT.run_bind, hown, pure_bind]
  cases hexternal with
  | global => exact run_typeExternalCall hargs
  | moduleFunction => exact run_typeExternalCall hargs
  | arrayFunction => exact run_typeExternalCall hargs

/-- Arguments that have the types of the parameters are not converted. -/
theorem convertEach_eq_self {table : SymbolTable}
    (hargs : args.map (Expr.typeIn? table) = types.map some) :
    List.zipWith (Expr.convert table) types args = args := by
  induction args generalizing types with
  | nil =>
      cases types with
      | nil => rfl
      | cons => cases hargs
  | cons arg args ih =>
      cases types with
      | nil => cases hargs
      | cons type types =>
          obtain ⟨harg, hargs⟩ := List.cons.inj hargs
          rw [List.zipWith_cons_cons, ih hargs, Expr.convert, if_pos harg]

/-- A direct call whose arguments have the types of the parameters takes them as they are. -/
theorem directCall_eq_ok {entry : EntryPoint} {table : SymbolTable}
    (hargs : args.map (Expr.typeIn? table) = entry.signature.args.map some) :
    directCall span entry args table =
      .ok (.nativeCall (.typed span entry.signature.ret) entry.symbol entry.signature args) := by
  have hlength : entry.signature.args.length = args.length := by
    simpa using (congrArg List.length hargs).symm
  simp [directCall, hlength, convertEach_eq_self hargs]

end KernelFront.Inference
