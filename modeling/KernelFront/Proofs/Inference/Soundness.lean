import KernelFront.Inference.Function
import KernelFront.Proofs.Inference.Bodies
import KernelFront.Proofs.Inference.Fixing
import KernelFront.Tree.Builder

/-! # Soundness of inference

After inference and after types are fixed, every expression has a type and every part has the type
that its place asks for: operands, tests, arguments, bounds, stored values and returned values. The
types that the returned values wait for are known once the result is settled.
-/

namespace KernelFront

namespace Inference

open Scope (resultSlot)

/-- The expressions of these statements are sound, and the statements have the types that they ask
for. -/
def AllSound (index ret : Ty) (stmts : List Stmt) : Prop :=
  ∀ stmt ∈ stmts, Sound index stmt.nodes ∧ stmt.Agrees Expr.ty ∧ stmt.Returns ret

section AllSound

variable {index ret : Ty}

@[simp] theorem allSound_nil : AllSound index ret [] := List.forall_mem_nil _

@[simp] theorem allSound_cons {stmt : Stmt} {stmts : List Stmt} :
    AllSound index ret (stmt :: stmts) ↔
      (Sound index stmt.nodes ∧ stmt.Agrees Expr.ty ∧ stmt.Returns ret) ∧
        AllSound index ret stmts :=
  List.forall_mem_cons

@[simp] theorem allSound_append {first second : List Stmt} :
    AllSound index ret (first ++ second) ↔
      AllSound index ret first ∧ AllSound index ret second :=
  List.forall_mem_append

end AllSound

variable {index ret : Ty} {table : SymbolTable}

/-! ## Fixing statements -/

/-- A returned value is converted to the type of the result. -/
theorem fixed_returned {note : Note} {node fixed : Expr}
    (hresult : table.typeOf? resultSlot = some ret) (hsettled : Settled index table node.nodes)
    (hfix :
      (Expr.deferredCoercion note node resultSlot).rebuildM (Expr.fixType table) = .ok fixed) :
    fixed.ty = some ret ∧ Sound index fixed.nodes := by
  simp only [Expr.rebuildM, bind_eq_ok] at hfix
  obtain ⟨node', hnode, hfix⟩ := hfix
  have hnode := fixed_fixTypes hsettled hnode
  simp only [Expr.fixType, Expr.resolveDeferred, hresult, bind_eq_ok, Except.ok.injEq,
    exists_eq_left', Expr.convert] at hfix
  -- Either the value has the type of the result, or a conversion is put in front of it.
  by_cases hty : node'.typeIn? table = some ret
  · have hnodeTy : node'.ty = some ret := by rw [hnode.ty, ← hnode.typeIn, hty]
    simp only [hty, if_true, pure_eq_ok, Expr.withTy_of_ty hnodeTy] at hfix
    subst hfix
    exact ⟨hnodeTy, hnode.sound⟩
  · rw [if_neg hty] at hfix
    cases hfix
    exact ⟨rfl, sound_cons.mpr ⟨⟨rfl, trivial⟩, hnode.sound⟩⟩

mutual

/-- Fixing the types of a statement that is ready. -/
theorem sound_fixStmt {stmt : Stmt} {fixed : List Stmt}
    (hresult : table.typeOf? resultSlot = some ret) (hready : AllReady index table stmt.nested)
    (hfix : stmt.rebuildM (Expr.fixType table) (fun stmt => pure [stmt]) = .ok fixed) :
    AllSound index ret (Stmt.nestedBody fixed) := by
  cases stmt with
  | assign span targets value =>
      simp only [Stmt.nested, allReady_cons] at hready
      obtain ⟨⟨hnodes, target, ty, rfl, htargetTy, hvalueTy⟩, _⟩ := hready
      simp only [Stmt.nodes, Stmt.exprs, List.singleton_append, Expr.nodesAll, List.append_nil,
        settled_append] at hnodes
      simp only [Stmt.rebuildM, Expr.rebuildAllM, bind_eq_ok, pure_eq_ok] at hfix
      obtain ⟨_, ⟨target', htarget, _, rfl, rfl⟩, value', hvalue, rfl⟩ := hfix
      have htarget := fixed_fixTypes hnodes.1 htarget
      have hvalue := fixed_fixTypes hnodes.2 hvalue
      simp only [Stmt.nestedBody, Stmt.nested, List.append_nil, allSound_cons, allSound_nil,
        and_true]
      refine ⟨?_, ⟨target', ty, rfl, htarget.ty_of_settled htargetTy,
        hvalue.ty_of_settled hvalueTy⟩, trivial⟩
      simp only [Stmt.nodes, Stmt.exprs, List.singleton_append, Expr.nodesAll, List.append_nil,
        sound_append]
      exact ⟨htarget.sound, hvalue.sound⟩
  | forIn span target iter body orelse index =>
      simp only [Stmt.nested, allReady_cons, allReady_append] at hready
      obtain ⟨⟨hnodes, rfl⟩, hbody, horelse⟩ := hready
      simp only [Stmt.nodes, Stmt.exprs, Option.toList_none, Expr.nodesAll, List.append_nil,
        settled_append] at hnodes
      simp only [Stmt.rebuildM, Expr.rebuildPartM, pure_bind, bind_eq_ok, pure_eq_ok] at hfix
      obtain ⟨target', htarget, iter', hiter, body', hbody', orelse', horelse', rfl⟩ := hfix
      have htarget := fixed_fixTypes hnodes.1 htarget
      have hiter := fixed_fixTypes hnodes.2 hiter
      simp only [Stmt.nestedBody, Stmt.nested, List.append_nil, allSound_cons, allSound_append]
      refine ⟨⟨?_, rfl, trivial⟩, sound_fixBody hresult hbody hbody',
        sound_fixBody hresult horelse horelse'⟩
      simp only [Stmt.nodes, Stmt.exprs, Option.toList_none, Expr.nodesAll, List.append_nil,
        sound_append]
      exact ⟨htarget.sound, hiter.sound⟩
  | whileLoop span test body orelse | branch span test body orelse =>
      simp only [Stmt.nested, allReady_cons, allReady_append] at hready
      obtain ⟨⟨hnodes, htestTy⟩, hbody, horelse⟩ := hready
      simp only [Stmt.nodes, Stmt.exprs, Expr.nodesAll, List.append_nil] at hnodes
      simp only [Stmt.rebuildM, bind_eq_ok, pure_eq_ok] at hfix
      obtain ⟨test', htest, body', hbody', orelse', horelse', rfl⟩ := hfix
      have htest := fixed_fixTypes hnodes htest
      simp only [Stmt.nestedBody, Stmt.nested, List.append_nil, allSound_cons, allSound_append]
      refine ⟨⟨?_, htest.ty_of_settled htestTy, trivial⟩, sound_fixBody hresult hbody hbody',
        sound_fixBody hresult horelse horelse'⟩
      simpa only [Stmt.nodes, Stmt.exprs, Expr.nodesAll, List.append_nil] using htest.sound
  | ret span value =>
      simp only [Stmt.nested, allReady_cons] at hready
      simp only [Stmt.rebuildM, bind_eq_ok, pure_eq_ok] at hfix
      obtain ⟨value', hvalue, rfl⟩ := hfix
      simp only [Stmt.nestedBody, Stmt.nested, List.append_nil, allSound_cons, allSound_nil,
        and_true]
      cases value with
      | none =>
          cases hvalue
          exact ⟨sound_nil, trivial, Option.some.inj (hresult.symm.trans hready.1)⟩
      | some value =>
          obtain ⟨⟨note, node, rfl, hnode⟩, _⟩ := hready
          simp only [Expr.rebuildPartM, bind_eq_ok, pure_eq_ok] at hvalue
          obtain ⟨value', hvalue, rfl⟩ := hvalue
          obtain ⟨hty, hsound⟩ := fixed_returned hresult hnode hvalue
          refine ⟨?_, trivial, hty⟩
          simpa only [Stmt.nodes, Stmt.exprs, Option.toList_some, Expr.nodesAll, List.append_nil]
            using hsound
  | expr span value =>
      simp only [Stmt.nested, allReady_cons] at hready
      obtain ⟨⟨hnodes, _⟩, _⟩ := hready
      simp only [Stmt.nodes, Stmt.exprs, Expr.nodesAll, List.append_nil] at hnodes
      simp only [Stmt.rebuildM, bind_eq_ok, pure_eq_ok] at hfix
      obtain ⟨value', hvalue, rfl⟩ := hfix
      have hvalue := fixed_fixTypes hnodes hvalue
      simp only [Stmt.nestedBody, Stmt.nested, List.append_nil, allSound_cons, allSound_nil,
        and_true]
      refine ⟨?_, trivial, trivial⟩
      simpa only [Stmt.nodes, Stmt.exprs, Expr.nodesAll, List.append_nil] using hvalue.sound
  | print span values dest newline =>
      simp only [Stmt.nested, allReady_cons] at hready
      obtain ⟨⟨hnodes, hboxed⟩, _⟩ := hready
      simp only [Stmt.nodes, Stmt.exprs, Expr.nodesAll_append, settled_append] at hnodes
      simp only [Stmt.rebuildM, bind_eq_ok, pure_eq_ok] at hfix
      obtain ⟨dest', hdest, values', hvalues, rfl⟩ := hfix
      have hdest := fixed_fixPart hnodes.1 hdest
      have hvalues := fixed_fixAll hnodes.2 hvalues
      simp only [Stmt.nestedBody, Stmt.nested, List.append_nil, allSound_cons, allSound_nil,
        and_true]
      refine ⟨?_, hvalues.forall_ty hboxed, trivial⟩
      simp only [Stmt.nodes, Stmt.exprs, Expr.nodesAll_append, sound_append]
      exact ⟨hdest.sound, hvalues.sound⟩
  | augAssign =>
      simp only [Stmt.nested, allReady_cons] at hready
      exact hready.1.2.elim
  | _ =>
      cases hfix
      exact allSound_cons.mpr ⟨⟨sound_nil, trivial, trivial⟩, allSound_nil⟩
termination_by structural stmt

/-- Fixing the types of a body whose statements are ready. -/
theorem sound_fixBody {body fixed : List Stmt} (hresult : table.typeOf? resultSlot = some ret)
    (hready : AllReady index table (Stmt.nestedBody body))
    (hfix : Stmt.rebuildBodyM (Expr.fixType table) (fun stmt => pure [stmt]) body = .ok fixed) :
    AllSound index ret (Stmt.nestedBody fixed) := by
  cases body with
  | nil =>
      cases hfix
      exact allSound_nil
  | cons stmt body =>
      obtain ⟨hstmt, hbody⟩ := allReady_append.mp hready
      simp only [Stmt.rebuildBodyM, bind_eq_ok, pure_eq_ok] at hfix
      obtain ⟨stmts, hstmts, rest, hrest, rfl⟩ := hfix
      rw [Stmt.nestedBody_append]
      exact allSound_append.mpr
        ⟨sound_fixStmt hresult hstmt hstmts, sound_fixBody hresult hbody hrest⟩
termination_by structural body

end

/-! ## Functions -/

/-- The type that the result is settled at is the type of its binding. -/
theorem visited_settleResult {declared : Option Ty} {span : Span} {before after : Scope} {ty : Ty}
    (hreach : Pass.Reaches (settleResult declared span) before ty after) :
    Visited before (fun table => table.typeOf? resultSlot = some ty) after := by
  obtain ⟨rfl, hfound⟩ := settled_of_settleResult hreach
  refine visited_setResult fun hvoid => ?_
  rcases hfound hvoid with rfl | ⟨declared, hjoin⟩
  · rfl
  · exact join_void (.inr rfl) hjoin

end Inference

/-- What inference and the fixing of types make of a function of the source: sound statements. The
temporaries stay as they are, and so does a missing value after a failure. -/
theorem FunctionDef.sound_typed {setting : Inference.Setting} {func typed : FunctionDef}
    {signature : Signature} {inferred : Inferred}
    (huncounted : ∀ stmt ∈ func.statements, stmt.Uncounted)
    (hinfer : Pass.Succeeds (Inference.inferFunction setting func signature) inferred)
    (htyped : Pass.Succeeds (inferred.func.typed inferred.symbols) typed) :
    Inference.AllSound setting.options.indexType inferred.signature.ret typed.statements ∧
      typed.temps = func.temps ∧ (func.errorReturn = none → typed.errorReturn = none) := by
  obtain ⟨-, body, ret, middle, scope, hbody, hret, rfl⟩ := Inference.exists_inferFunction hinfer
  have hbody := Inference.visited_inferBody huncounted hbody
  have hresult := Inference.visited_settleResult hret
  have hanonymous := Inference.Scope.anonymous_ofFunction func signature.args
  have hready := (hbody.holds hanonymous).mono hresult.grows
  have hslot := hresult.holds (hbody.grows.anonymous hanonymous)
  obtain ⟨_, _, hfix, hfailure, rfl⟩ := FunctionDef.exists_typed htyped
  exact ⟨Inference.sound_fixBody hslot hready hfix, rfl, hfailure⟩

/-- What inference and the fixing of types make of a function of the source is well typed. Lowered
forms need no hypothesis, since inference refuses them; annotations need none, since it replaces
them; and marks of reading and writing may stand anywhere. -/
theorem FunctionDef.wellTyped_typed {setting : Inference.Setting} {func typed : FunctionDef}
    {signature : Signature} {inferred : Inferred}
    (huncounted : ∀ stmt ∈ func.statements, stmt.Uncounted) (herror : func.errorReturn = none)
    (hinfer : Pass.Succeeds (Inference.inferFunction setting func signature) inferred)
    (htyped : Pass.Succeeds (inferred.func.typed inferred.symbols) typed) :
    typed.WellTyped setting.options.indexType inferred.signature.ret := by
  obtain ⟨hsound, _, hkept⟩ := FunctionDef.sound_typed huncounted hinfer htyped
  have hnodes {node : Expr} (hnode : node ∈ typed.nodes) :
      node.ty.isSome ∧ node.Agrees setting.options.indexType Expr.ty := by
    obtain ⟨stmt, hstmt, hnode⟩ := List.mem_flatMap.mp hnode
    exact (hsound stmt hstmt).1 node hnode
  exact ⟨fun _ hnode => (hnodes hnode).1, fun _ hnode => (hnodes hnode).2,
    fun stmt hstmt => (hsound stmt hstmt).2.1, fun stmt hstmt => (hsound stmt hstmt).2.2,
    hkept herror⟩

/-- A function that sums up an array of floating-point numbers in a counted loop. Its two return
statements have different types. -/
def summing : FunctionDef :=
  open Builder in
  function "summing" ["n", "xs"]
    [assign (store "sum") (int 0),
      forIn (store "i") (call (load "range") [load "n"])
        [augAssign (store "sum") .add (index (load "xs") (load "i"))],
      branch (.unaryOp {} .not (load "n")) [ret (some (load "n"))] [],
      print [load "sum"],
      ret (some (index (load "xs") (int 0)))]

/-- A namespace of builtins. -/
def builtinsOnly : Inference.Setting := { names := ⟨fun _ => .builtin, fun _ _ => none⟩ }

theorem wellTyped_typed_summing :
    ∃ inferred typed,
      Pass.Succeeds (Inference.inferFunction builtinsOnly summing
        { args := [.int64, .strided .float64 1] }) inferred ∧
      Pass.Succeeds (inferred.func.typed inferred.symbols) typed ∧
      inferred.signature.ret = .float64 ∧
      typed.WellTyped .int64 inferred.signature.ret := by
  obtain ⟨inferred, hinfer, htest⟩ : ∃ inferred, Pass.Succeeds (Inference.inferFunction builtinsOnly
      summing { args := [.int64, .strided .float64 1] }) inferred ∧
      (decide (inferred.signature.ret = .float64) &&
        ((inferred.func.typed inferred.symbols).run.answer fun _ _ => .host).2.toOption.isSome) =
          true :=
    Pass.exists_succeeds (fun _ _ => .host) (by decide +kernel)
  obtain ⟨hret, hfixed⟩ := Bool.and_eq_true_iff.mp htest
  obtain ⟨typed, htyped, _⟩ := Pass.exists_succeeds (fun _ _ => .host)
    (Option.any_true.trans hfixed)
  refine ⟨_, _, hinfer, htyped, of_decide_eq_true hret, ?_⟩
  refine FunctionDef.wellTyped_typed ?_ rfl hinfer htyped
  simp [summing, Builder.function, Builder.assign, Builder.forIn, Builder.augAssign, Builder.branch,
    Builder.print, Builder.ret, FunctionDef.statements, Stmt.nestedBody, Stmt.nested,
    Stmt.Uncounted]

end KernelFront
