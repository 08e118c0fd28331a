import KernelFront.Proofs.Format.Tree
import KernelFront.Proofs.Packing

/-! # Compiled trees in the tree format

A compiled function can be written in the tree format, but not always be read back: the format has
no literal for a double that is not finite. If all doubles that go into a compilation are finite, so
are those of the compiled statements and temporaries, and what decides is the value that stands for
a failure. It is a NaN exactly for functions with a floating-point result.
-/

namespace KernelFront

/-! ## Numbers of compiled functions -/

section Doubles

variable {table : SymbolTable} {p : Binary64 → Prop} {ret : Ty}

theorem AllFixed.doublesIn {nodes : List Expr} (hnodes : AllFixed table p nodes) :
    DoublesIn p (nodes.flatMap fun node => node.note.scalars ++ node.formScalars) :=
  doublesIn_flatMap.mpr fun node hnode =>
    doublesIn_append.mpr ⟨(hnodes node hnode).noteDoubles, (hnodes node hnode).formDoubles⟩

theorem Stmt.IsBoxed.doublesIn {stmt : Stmt} (hstmt : stmt.IsBoxed table p ret) :
    DoublesIn p stmt.scalars := by
  refine doublesIn_append.mpr ⟨doublesIn_span, doublesIn_flatMap.mpr fun e he => ?_⟩
  exact (allFixed_nodesAll.mp hstmt.nodes e he).doublesIn

/-- Only for a floating-point result does the value that stands for a failure hold a double. -/
theorem Boxing.doublesIn_failureValue {span : Span} {value : Expr}
    (hret : ∀ bits, ret ≠ .float bits) (hvalue : failureValue ret span = some value) :
    DoublesIn p value.scalars := by
  unfold failureValue at hvalue
  split at hvalue
  case h_3 => exact absurd rfl (hret _)
  case h_6 => cases hvalue
  all_goals
    cases hvalue
    simp [Expr.scalars, Expr.nodes, Expr.note, Expr.formScalars, Constant.scalars, Ty.scalars]

/-- The doubles of a compiled function have the property, unless its result is a floating-point
number. -/
theorem Compiled.IsDone.doublesIn {compiled : Compiled} (hdone : compiled.IsDone p)
    (hret : ∀ bits, compiled.signature.ret ≠ .float bits) :
    DoublesIn p compiled.func.scalars := by
  simp only [FunctionDef.scalars, doublesIn_append, doublesIn_flatMap]
  refine ⟨⟨⟨doublesIn_span, fun stmt hstmt => (hdone.statements stmt hstmt).doublesIn⟩, ?_⟩,
    hdone.temps⟩
  intro value hvalue
  refine Boxing.doublesIn_failureValue hret (hdone.failureExpr.symm.trans ?_)
  exact Option.mem_toList.mp hvalue

end Doubles

/-! ## Values that cannot be read -/

section Unreadable

open Json

variable {style : Json.Style}

/-- A constant that is not finite is written as `null`, which is not read. -/
theorem Expr.not_reads_const {note : Note} {x : Binary64} (hx : x.isFinite = false) (e : Expr) :
    ofJson? style (Expr.const note (.float x)).toJson ≠ some e := by
  intro hread
  have hnull : Constant.ofJson? (Constant.float x).toJson = none := by
    rw [Constant.toJson, ofBinary64, hx]
    rfl
  have hform {part : Json → Option Expr} {n : Note} :
      ofForm? style part n (tagged "Const" (Constant.float x).toJson) = none := by
    change (Constant.ofJson? (Constant.float x).toJson).map _ = none
    rw [hnull, Option.map_none]
  simp only [ofJson?, toJson, wrap, Json.depth, ofDepth?, ofLayer?, Option.bind_eq_bind,
    Option.bind_eq_some_iff] at hread
  obtain ⟨r, hr, _, _, _, _, _, _, hkind⟩ := hread
  cases hr
  simp only [Record.required, List.lookup_cons_self, Option.bind_some, hform] at hkind
  cases hkind

/-- If a function is read back, so is the value that it returns after a failure. -/
theorem FunctionDef.reads_failureExpr {f g : FunctionDef} {value : Expr}
    (hvalue : f.failureExpr = some value) (hread : ofJson? style f.toJson = some g) :
    ∃ e, Expr.ofJson? style value.toJson = some e := by
  obtain ⟨⟨_⟩, herror, rfl⟩ := Option.bind_eq_some_iff.mp hvalue
  simp only [ofJson?, toJson, herror, Option.bind_eq_bind, Option.bind_eq_some_iff] at hread
  obtain ⟨r, hr, _, _, _, _, _, _, _, _, read, hfailure, _⟩ := hread
  cases hr
  change (ErrorReturn.ofJson? style (ErrorReturn.toJson ⟨some value⟩)).map some = some read
    at hfailure
  obtain ⟨_, hfailure, _⟩ := Option.map_eq_some_iff.mp hfailure
  simp only [ErrorReturn.ofJson?, ErrorReturn.toJson, Json.option, Option.bind_eq_bind,
    Option.bind_eq_some_iff] at hfailure
  obtain ⟨r, hr, part, hpart, _⟩ := hfailure
  cases hr
  simp only [Record.optional, List.lookup_cons_self] at hpart
  -- What is written of an expression is an object, not `null`.
  have hobject : ∃ members, value.toJson = .obj members := by
    cases value <;> exact ⟨_, rfl⟩
  obtain ⟨members, hmembers⟩ := hobject
  rw [hmembers] at hpart ⊢
  obtain ⟨e, he, _⟩ := Option.map_eq_some_iff.mp hpart
  exact ⟨e, he⟩

/-- A compiled function with a floating-point result is written with a NaN. -/
theorem Compiled.IsDone.ofJson?_eq_none {compiled : Compiled} {p : Binary64 → Prop} {bits : Nat}
    (hdone : compiled.IsDone p) (hret : compiled.signature.ret = .float bits) :
    FunctionDef.ofJson? style compiled.func.toJson = none := by
  have hfailure := hdone.failureExpr
  rw [hret] at hfailure
  refine Option.eq_none_iff_forall_not_mem.mpr fun g hread => ?_
  obtain ⟨e, he⟩ := FunctionDef.reads_failureExpr hfailure hread
  exact Expr.not_reads_const rfl e he

end Unreadable

/-! ## Reading back -/

/-- The literals of a function of the source are among its numbers. -/
theorem Inference.sourceFunction_of_scalars {func : FunctionDef} {p : Binary64 → Prop}
    (hsource : func.IsSource) (hdoubles : DoublesIn p func.scalars) :
    SourceFunction p func ∧ TempDoubles p func.temps := by
  simp only [FunctionDef.scalars, doublesIn_append, doublesIn_flatMap] at hdoubles
  obtain ⟨⟨⟨_, hstatements⟩, _⟩, htemps⟩ := hdoubles
  refine ⟨⟨hsource, fun node hnode => ?_⟩, htemps⟩
  obtain ⟨stmt, hstmt, hnode⟩ := List.mem_flatMap.mp hnode
  obtain ⟨e, he, hnode⟩ := Expr.mem_nodesAll.mp hnode
  have hexprs := doublesIn_flatMap.mp (doublesIn_append.mp (hstatements stmt hstmt)).2
  exact (doublesIn_append.mp (doublesIn_flatMap.mp (hexprs e he) node hnode)).2

namespace FunctionDef

/-- A function of the source that is compiled from finite doubles only is read back from its JSON
form exactly if its result is not a floating-point number. The doubles that it is compiled from are
those of its literals and those that types record: types of the signature, of the namespace and of
the entry points that are called. -/
theorem readsBack_compile_iff {setting : Inference.Setting} {func : FunctionDef}
    {signature : Signature} {compiled : Compiled} (hsource : func.IsSource)
    (hfinite : ∀ s ∈ func.scalars, s.IsFinite)
    (hsetting : setting.HasDoubles fun value => value.isFinite = true)
    (hsignature : Inference.SignatureDoubles (fun value => value.isFinite = true) signature)
    (hcompile : Pass.SucceedsWith (Resolution.HasDoubles fun value => value.isFinite = true)
      (func.compile setting signature) compiled)
    (hrange : ∀ s ∈ compiled.func.scalars, s.InRange) (style : Json.Style) :
    ofJson? style compiled.func.toJson = some compiled.func ↔
      ∀ bits, compiled.signature.ret ≠ .float bits := by
  obtain ⟨hfunc, htemps⟩ :=
    Inference.sourceFunction_of_scalars hsource (doublesIn_isFinite.mpr hfinite)
  have hdone := isDone_compile hsetting hfunc htemps hsignature hcompile
  constructor
  · intro hread bits hret
    rw [hdone.ofJson?_eq_none hret] at hread
    cases hread
  · intro hret
    have hnumbers := doublesIn_isFinite.mp (hdone.doublesIn hret)
    refine reads_ofJson? (fun s hs => ⟨hrange s hs, hnumbers s hs⟩) _ ?_ (Nat.le_refl _)
    exact compiled.func.full_draft ▸ compiled.func.draft.allows_full

end FunctionDef

/-- `y = x * 2.5; return n`: a function that computes with doubles and returns an integer. -/
def scaling : FunctionDef :=
  open Builder in
  function "scaling" ["x", "n"]
    [assign (store "y") (binOp (load "x") .mult (float ⟨0x4004000000000000⟩)),
      ret (some (load "n"))]

theorem isSource_scaling : scaling.IsSource := by
  refine ⟨List.forall_mem_cons.mpr ⟨⟨List.forall_mem_singleton.mpr .name, ?_⟩,
    List.forall_mem_singleton.mpr (List.forall_mem_singleton.mpr ?_)⟩, rfl⟩ <;> decide

/-- A namespace without builtins has no doubles. -/
theorem hasDoubles_globalsOnly {p : Binary64 → Prop} : globalsOnly.HasDoubles p := by
  refine ⟨?_, ?_, ?_, fun hlookup => ?_, fun hattr => ?_⟩
  case refine_4 => cases hlookup
  case refine_5 => cases hattr
  all_goals simp [globalsOnly, Ty.int64, Ty.int32, Ty.float32, Ty.scalars]

theorem readsBack_compile_iff_scaling : ∃ compiled, scaling.IsSource ∧
    (∀ s ∈ scaling.scalars, s.IsFinite) ∧
    Pass.SucceedsWith (Resolution.HasDoubles fun value => value.isFinite = true)
      (scaling.compile globalsOnly { args := [.float64, .int64] }) compiled ∧
    (∀ s ∈ compiled.func.scalars, s.InRange) ∧ compiled.signature.ret = .int64 ∧
    FunctionDef.ofJson? .compact compiled.func.toJson = some compiled.func := by
  have hfinite : ∀ s ∈ scaling.scalars, s.IsFinite := by decide +kernel
  obtain ⟨compiled, hcompile, htest⟩ : ∃ compiled,
      Pass.SucceedsWith (Resolution.HasDoubles fun value => value.isFinite = true)
        (scaling.compile globalsOnly { args := [.float64, .int64] }) compiled ∧
      decide (compiled.signature.ret = .int64 ∧ ∀ s ∈ compiled.func.scalars, s.InRange) = true :=
    Pass.exists_succeedsWith (fun _ _ => .host) (fun _ _ => trivial) (by decide +kernel)
  obtain ⟨hret, hrange⟩ := of_decide_eq_true htest
  refine ⟨compiled, isSource_scaling, hfinite, hcompile, hrange, hret, ?_⟩
  refine (FunctionDef.readsBack_compile_iff isSource_scaling hfinite hasDoubles_globalsOnly
    ⟨?_, fun ty hdeclared => ?_⟩ hcompile hrange .compact).mpr ?_
  · simp [Ty.float64, Ty.int64, Ty.scalars]
  · cases hdeclared
  · rw [hret]
    exact fun bits => Ty.noConfusion

/-- `return x`. -/
def returning : FunctionDef :=
  open Builder in
  function "returning" ["x"] [ret (some (load "x"))]

theorem isSource_returning : returning.IsSource :=
  ⟨List.forall_mem_singleton.mpr (List.forall_mem_singleton.mpr (by decide)), rfl⟩

/-- A compiled function of the source cannot be read back. -/
theorem returning_not_readBack : returning.IsSource ∧ (∀ s ∈ returning.scalars, s.IsFinite) ∧
    ∃ compiled, Pass.Succeeds (returning.compile globalsOnly { args := [.float64] }) compiled ∧
      (∀ s ∈ compiled.func.scalars, s.InRange) ∧
      ∀ style, FunctionDef.ofJson? style compiled.func.toJson = none := by
  obtain ⟨compiled, hcompile, htest⟩ : ∃ compiled,
      Pass.Succeeds (returning.compile globalsOnly { args := [.float64] }) compiled ∧
      decide (compiled.signature.ret = .float64 ∧ ∀ s ∈ compiled.func.scalars, s.InRange) = true :=
    Pass.exists_succeeds (fun _ _ => .host) (by decide +kernel)
  obtain ⟨hret, hrange⟩ := of_decide_eq_true htest
  have hdone := FunctionDef.isDone_of_isSource isSource_returning hcompile
  exact ⟨isSource_returning, by decide +kernel, compiled, hcompile, hrange,
    fun style => hdone.ofJson?_eq_none hret⟩

end KernelFront
