import KernelFront.Format.Tree
import KernelFront.Proofs.Traversal
import KernelFront.Tree.Outline
import Mathlib.Data.List.Flatten
import Mathlib.Data.List.Perm.Basic

/-! # Walks are complete

A walk over a function meets each statement, the expressions of the statement with everything below
them, and then the statements in its bodies, always through the lists of direct parts. The tree
format writes every expression as an object with the same four members and every statement as an
object with two of them, wherever it is stored. The walk meets as many of each as the written form
of the body has objects, and the same ones. The walk that the passes rebuild a function by reaches
these nodes too, in an order of its own.
-/

namespace KernelFront

/-! ## Walks by direct parts -/

namespace Expr

theorem nodesAll_eq_flatMap (es : List Expr) : nodesAll es = es.flatMap nodes := by
  induction es with
  | nil => rfl
  | cons e es ih => rw [nodesAll, ih, List.flatMap_cons]

theorem length_nodes_lt_of_mem_children {e part : Expr} (hpart : part ∈ e.children) :
    part.nodes.length < e.nodes.length := by
  rw [nodes_eq e, List.length_cons, nodesAll_eq_flatMap, Nat.lt_succ_iff, List.flatMap_def]
  exact (List.sublist_flatten_of_mem (List.mem_map_of_mem hpart)).length_le

/-- An expression with everything below it, as a walk by direct sub-expressions meets it. -/
def walk (e : Expr) : List Expr := e :: e.children.attach.flatMap fun part => part.1.walk
termination_by e.nodes.length
decreasing_by exact length_nodes_lt_of_mem_children part.2

theorem walk_eq (e : Expr) : e.walk = e :: e.children.flatMap walk := by
  rw [walk, List.flatMap_def, List.attach_map_val, List.flatMap_def]

theorem walk_eq_nodes (e : Expr) : e.walk = e.nodes := by
  induction e using Expr.induct with
  | hstep e ih =>
      rw [walk_eq, nodes_eq, nodesAll_eq_flatMap, List.flatMap_congr ih]

end Expr

namespace Stmt

theorem nestedBody_eq_flatMap (body : List Stmt) : nestedBody body = body.flatMap nested := by
  induction body with
  | nil => rfl
  | cons stmt body ih => rw [nestedBody, ih, List.flatMap_cons]

theorem length_nested_lt_of_mem_bodies {stmt inner : Stmt} {body : List Stmt}
    (hbody : body ∈ stmt.bodies) (hinner : inner ∈ body) :
    inner.nested.length < stmt.nested.length := by
  have hle : inner.nested.length ≤ (nestedBody body).length := by
    rw [nestedBody_eq_flatMap, List.flatMap_def]
    exact (List.sublist_flatten_of_mem (List.mem_map_of_mem hinner)).length_le
  rw [nested_eq stmt, List.length_cons, Nat.lt_succ_iff, List.flatMap_def]
  exact Nat.le_trans hle (List.sublist_flatten_of_mem (List.mem_map_of_mem hbody)).length_le

/-- A statement with all statements in its bodies, as a walk by nested bodies meets them. -/
def walk (stmt : Stmt) : List Stmt :=
  stmt :: stmt.bodies.attach.flatMap fun body => body.1.attach.flatMap fun inner => inner.1.walk
termination_by stmt.nested.length
decreasing_by exact length_nested_lt_of_mem_bodies body.2 inner.2

theorem walk_eq (stmt : Stmt) :
    stmt.walk = stmt :: stmt.bodies.flatMap fun body => body.flatMap walk := by
  rw [walk]
  simp only [List.flatMap_def, List.attach_map_val (f := walk)]
  rw [List.attach_map_val (f := fun body : List Stmt => (body.map walk).flatten)]

theorem walk_eq_nested (stmt : Stmt) : stmt.walk = stmt.nested := by
  induction stmt using Stmt.induct with
  | hstep stmt ih =>
      rw [walk_eq, nested_eq]
      refine congrArg (stmt :: ·) (List.flatMap_congr fun body hbody => ?_)
      rw [nestedBody_eq_flatMap, List.flatMap_congr (ih body hbody)]

end Stmt

/-- The expressions of a statement and of all statements in its bodies, with everything below
them. -/
def Stmt.walkedExprs (stmt : Stmt) : List Expr :=
  stmt.walk.flatMap fun inner => inner.exprs.flatMap Expr.walk

theorem Stmt.walkedExprs_eq (stmt : Stmt) : stmt.walkedExprs =
    stmt.exprs.flatMap Expr.walk ++ stmt.bodies.flatMap fun body => body.flatMap walkedExprs := by
  rw [walkedExprs, walk_eq, List.flatMap_cons, List.flatMap_assoc]
  simp only [List.flatMap_assoc]
  rfl

namespace FunctionDef

/-- The statements that a walk over the body of a function meets. -/
def walk (func : FunctionDef) : List Stmt := func.body.flatMap Stmt.walk

/-- The expressions that a walk over the body of a function meets. -/
def walkedExprs (func : FunctionDef) : List Expr := func.body.flatMap Stmt.walkedExprs

end FunctionDef

/-! ## Objects of a written form -/

namespace Json

mutual

/-- The objects with exactly these members that stand anywhere in a value. -/
def records (names : List String) : Json → List Json
  | .arr items => recordsAll names items
  | .obj members =>
      let inner := recordsMembers names members
      if members.map Prod.fst = names then .obj members :: inner else inner
  | _ => []

/-- The objects with exactly these members that stand anywhere in some values. -/
def recordsAll (names : List String) : List Json → List Json
  | [] => []
  | v :: vs => records names v ++ recordsAll names vs

/-- The objects with exactly these members that stand anywhere in the values of some members. -/
def recordsMembers (names : List String) : List (String × Json) → List Json
  | [] => []
  | (_, v) :: members => records names v ++ recordsMembers names members

end

theorem recordsAll_eq_flatMap (names : List String) (items : List Json) :
    recordsAll names items = items.flatMap (records names) := by
  induction items with
  | nil => rfl
  | cons v vs ih => rw [recordsAll, ih, List.flatMap_cons]

end Json

/-- The members of an expression in the tree format. -/
def Expr.memberNames : List String := ["kind", "span", "binding", "ty"]

/-- The members of a statement in the tree format. -/
def Stmt.memberNames : List String := ["kind", "span"]

section Records

open Json (records recordsAll recordsMembers)

variable {rest : List String}

theorem Json.records_arr (names : List String) (items : List Json) :
    records names (.arr items) = recordsAll names items := rfl

theorem Json.records_bool (names : List String) (b : Bool) : records names (.bool b) = [] := rfl

theorem Json.records_obj_of_ne {name : String} {v : Json} {members : List (String × Json)}
    (hname : name ≠ "kind") : records ("kind" :: rest) (.obj ((name, v) :: members)) =
      records ("kind" :: rest) v ++ recordsMembers ("kind" :: rest) members := by
  simp [records, recordsMembers, hname]

mutual

theorem Constant.records_toJson (c : Constant) : records ("kind" :: rest) c.toJson = [] := by
  cases c with
  | tuple items =>
      simp [toJson, Json.tagged, records, recordsMembers, Constant.recordsAll_toJsonAll items]
  | float x =>
      simp only [toJson, Json.tagged, Json.ofBinary64]
      split <;> simp [records, recordsMembers]
  | complex re im =>
      simp only [toJson, Json.tagged, Json.ofBinary64]
      split <;> split <;> simp [records, recordsMembers, recordsAll]
  | _ => simp [toJson, Json.tagged, records, recordsMembers]
termination_by structural c

theorem Constant.recordsAll_toJsonAll (cs : List Constant) :
    recordsAll ("kind" :: rest) (toJsonAll cs) = [] := by
  cases cs with
  | nil => rfl
  | cons c cs =>
      rw [toJsonAll, recordsAll, Constant.records_toJson c, Constant.recordsAll_toJsonAll cs,
        List.append_nil]
termination_by structural cs

end

mutual

theorem Ty.records_toJson (ty : Ty) : records ("kind" :: rest) ty.toJson = [] := by
  cases ty with
  | pointer base | dtype base =>
      simp [toJson, Json.tagged, records, recordsMembers, Ty.records_toJson base]
  | array base | carray base =>
      simp [toJson, Json.tagged, Json.taggedRecord, Json.nat, records, recordsMembers,
        Ty.records_toJson base]
  | function args ret =>
      simp [toJson, Json.tagged, Json.taggedRecord, records, recordsMembers,
        Ty.recordsAll_toJsonAll args, Ty.records_toJson ret]
  | tuple size value | list size value =>
      cases value <;> simp [toJson, constants, Json.tagged, Json.taggedRecord, Json.option,
        Json.nat, records, recordsMembers, Constant.recordsAll_toJsonAll]
  | _ => simp [toJson, Json.tagged, Json.taggedRecord, Json.nat, records, recordsMembers]
termination_by structural ty

theorem Ty.recordsAll_toJsonAll (tys : List Ty) :
    recordsAll ("kind" :: rest) (toJsonAll tys) = [] := by
  cases tys with
  | nil => rfl
  | cons ty tys =>
      rw [toJsonAll, recordsAll, Ty.records_toJson ty, Ty.recordsAll_toJsonAll tys,
        List.append_nil]
termination_by structural tys

end

/-- An optional value holds no such object if its values hold none. -/
theorem Json.records_option {α : Type} {f : α → Json} {part : Option α}
    (hpart : ∀ value ∈ part, records ("kind" :: rest) (f value) = []) :
    records ("kind" :: rest) (Json.option f part) = [] := by
  cases part with
  | none => rfl
  | some value => exact hpart value rfl

theorem Json.records_strings (texts : List String) :
    records ("kind" :: rest) (Json.strings texts) = [] := by
  induction texts with
  | nil => rfl
  | cons text texts ih => exact ih

theorem FunctionType.records_toJson (s : FunctionType) :
    records ("kind" :: rest) s.toJson = [] := by
  simp [toJson, records, recordsMembers, Ty.recordsAll_toJsonAll, Ty.records_toJson]

theorem Ty.records_option (ty : Option Ty) :
    records ("kind" :: rest) (Json.option toJson ty) = [] :=
  Json.records_option fun ty _ => ty.records_toJson

theorem Variable.records_toJson (var : Variable) : records ("kind" :: rest) var.toJson = [] := by
  have hvalue : records ("kind" :: rest) (Json.option Constant.toJson var.constantValue) = [] :=
    Json.records_option fun c _ => c.records_toJson
  have hname : records ("kind" :: rest) (Json.option .str var.name) = [] :=
    Json.records_option fun _ _ => rfl
  simp [toJson, records, recordsMembers, Ty.records_option, hvalue, hname]

theorem Binding.records_toJson (binding : Binding) :
    records ("kind" :: rest) binding.toJson = [] := by
  cases binding <;>
    simp [toJson, Json.tagged, records, recordsMembers, SymbolId.toJson, Json.nat,
      Variable.records_toJson]

theorem Span.records_toJson (span : Span) : records ("kind" :: rest) span.toJson = [] := by
  simp [toJson, Json.nat, records, recordsMembers]

/-! ## Objects of expressions -/

theorem Expr.records_wrap (note : Note) (form : Json) :
    records ("kind" :: rest) (wrap note form) =
      (if rest = ["span", "binding", "ty"] then [wrap note form] else []) ++
        records ("kind" :: rest) form := by
  have hbinding : records ("kind" :: rest) (Json.option Binding.toJson note.binding) = [] :=
    Json.records_option fun binding _ => binding.records_toJson
  simp only [wrap, records, recordsMembers, Span.records_toJson, hbinding, Ty.records_option,
    List.map_cons, List.map_nil, List.append_nil, List.cons.injEq, true_and, @eq_comm _ _ rest]
  split <;> rfl

theorem Expr.recordsAll_toJsonAll (es : List Expr) : recordsAll ("kind" :: rest) (toJsonAll es) =
    es.flatMap fun e => records ("kind" :: rest) e.toJson := by
  induction es with
  | nil => rfl
  | cons e es ih => rw [toJsonAll, recordsAll, ih, List.flatMap_cons]

theorem Expr.recordsAll_toJsonKeywords (keywords : List (String × Expr)) :
    recordsAll ("kind" :: rest) (toJsonKeywords keywords) =
      (keywords.map Prod.snd).flatMap fun e => records ("kind" :: rest) e.toJson := by
  induction keywords with
  | nil => rfl
  | cons keyword keywords ih =>
      rw [toJsonKeywords, recordsAll, ih, List.map_cons, List.flatMap_cons]
      simp [records, recordsMembers]

theorem Expr.records_toJsonPart (part : Option Expr) :
    records ("kind" :: rest) (toJsonPart part) =
      part.toList.flatMap fun e => records ("kind" :: rest) e.toJson := by
  cases part <;> simp [toJsonPart, records]

/-- The objects of an expression: its own, then those of its direct sub-expressions. -/
theorem Expr.records_toJson (e : Expr) : records ("kind" :: rest) e.toJson =
    (if rest = ["span", "binding", "ty"] then [e.toJson] else []) ++
      e.children.flatMap fun part => records ("kind" :: rest) part.toJson := by
  cases e with
  | const note value =>
      simp [toJson, records_wrap, children, Json.tagged, records, recordsMembers,
        Constant.records_toJson]
  | name | ellipsis | temp =>
      simp [toJson, records_wrap, children, Json.tagged, Json.taggedRecord, Json.nat, records,
        recordsMembers, TempId.toJson]
  | objectTemp note node id =>
      cases id <;> simp [toJson, records_wrap, children, Json.tagged, Json.taggedRecord, Json.nat,
        Json.option, records, recordsMembers, TempId.toJson]
  | compare =>
      simp [toJson, records_wrap, children, Json.tagged, Json.taggedRecord, records,
        recordsMembers, recordsAll_toJsonAll, Json.records_strings]
  | _ =>
      simp [toJson, records_wrap, children, Json.tagged, Json.taggedRecord, Json.nat, records,
        recordsMembers, recordsAll_toJsonAll, recordsAll_toJsonKeywords, records_toJsonPart,
        Ty.records_toJson, FunctionType.records_toJson, SymbolId.toJson]

theorem Expr.records_memberNames (e : Expr) :
    records Expr.memberNames e.toJson = e.walk.map toJson := by
  induction e using Expr.induct with
  | hstep e ih =>
      rw [memberNames, records_toJson, if_pos rfl, walk_eq, List.map_cons, List.map_flatMap,
        List.singleton_append, ← List.flatMap_congr ih, memberNames]

/-- There are no statements in an expression. -/
theorem Expr.records_stmtMemberNames (e : Expr) : records Stmt.memberNames e.toJson = [] := by
  induction e using Expr.induct with
  | hstep e ih =>
      rw [Stmt.memberNames, records_toJson, if_neg (by decide), List.nil_append,
        List.flatMap_eq_nil_iff]
      exact ih

/-! ## Objects of statements -/

theorem Stmt.records_wrap (span : Span) (form : Json) : records ("kind" :: rest) (wrap span form) =
    (if rest = ["span"] then [wrap span form] else []) ++ records ("kind" :: rest) form := by
  simp only [wrap, records, recordsMembers, Span.records_toJson, List.map_cons, List.map_nil,
    List.append_nil, List.cons.injEq, true_and, @eq_comm _ _ rest]
  split <;> rfl

theorem Stmt.recordsAll_toJsonAll (body : List Stmt) :
    recordsAll ("kind" :: rest) (toJsonAll body) =
      body.flatMap fun inner => records ("kind" :: rest) inner.toJson := by
  induction body with
  | nil => rfl
  | cons stmt body ih => rw [toJsonAll, recordsAll, ih, List.flatMap_cons]

theorem Expr.records_optionToJson (part : Option Expr) :
    records ("kind" :: rest) (Json.option toJson part) =
      part.toList.flatMap fun e => records ("kind" :: rest) e.toJson := by
  cases part <;> simp [Json.option, records]

/-- The objects of a statement: its own, those of its expressions and those of its bodies. -/
theorem Stmt.records_toJson (stmt : Stmt) : (records ("kind" :: rest) stmt.toJson).Perm
    ((if rest = ["span"] then [stmt.toJson] else []) ++
      ((stmt.exprs.flatMap fun e => records ("kind" :: rest) e.toJson) ++
        stmt.bodies.flatMap fun body => body.flatMap fun inner =>
          records ("kind" :: rest) inner.toJson)) := by
  cases stmt with
  | forIn span target iter body orelse index =>
      -- In the written form the index stands after the bodies.
      simp (disch := decide) only [toJson, records_wrap, exprs, bodies, Json.taggedRecord,
        Json.tagged, Json.records_obj_of_ne, Json.records_arr, recordsMembers, recordsAll_toJsonAll,
        Expr.records_optionToJson, List.flatMap_cons, List.flatMap_nil, List.append_nil,
        List.append_assoc]
      refine .append_left _ (.append_left _ (.append_left _ ?_))
      rw [← List.append_assoc]
      exact List.perm_append_comm
  | print span values dest newline =>
      -- In the written form the destination stands after the values.
      simp (disch := decide) only [toJson, records_wrap, exprs, bodies, Json.taggedRecord,
        Json.tagged, Json.records_obj_of_ne, Json.records_arr, Json.records_bool, recordsMembers,
        Expr.recordsAll_toJsonAll, Expr.records_optionToJson, List.flatMap_append,
        List.flatMap_nil, List.append_nil]
      exact .append_left _ List.perm_append_comm
  | _ =>
      simp [toJson, records_wrap, exprs, bodies, Json.tagged, Json.taggedRecord, records,
        recordsMembers, recordsAll_toJsonAll, Expr.recordsAll_toJsonAll, Expr.records_optionToJson,
        Json.records_strings]

/-- The objects of the expressions below a statement are the expressions that the walk meets. -/
theorem Stmt.records_exprMemberNames (stmt : Stmt) :
    (records Expr.memberNames stmt.toJson).Perm (stmt.walkedExprs.map Expr.toJson) := by
  induction stmt using Stmt.induct with
  | hstep stmt ih =>
      refine stmt.records_toJson.trans ?_
      rw [if_neg (by decide), List.nil_append, walkedExprs_eq, List.map_append, List.map_flatMap,
        List.map_flatMap]
      refine .append (.of_eq (List.flatMap_congr fun e _ => e.records_memberNames)) ?_
      refine .flatMap_left _ fun body hbody => ?_
      rw [List.map_flatMap]
      exact .flatMap_left _ fun inner hinner => ih body hbody inner hinner

/-- The objects of the statements in a statement are those that the walk meets. -/
theorem Stmt.records_memberNames (stmt : Stmt) :
    (records Stmt.memberNames stmt.toJson).Perm (stmt.walk.map toJson) := by
  induction stmt using Stmt.induct with
  | hstep stmt ih =>
      have hexprs : (stmt.exprs.flatMap fun e => records memberNames e.toJson) = [] :=
        List.flatMap_eq_nil_iff.mpr fun e _ => e.records_stmtMemberNames
      refine stmt.records_toJson.trans ?_
      rw [if_pos rfl, ← memberNames, hexprs, List.nil_append, List.singleton_append, walk_eq,
        List.map_cons, List.map_flatMap]
      refine .cons _ (.flatMap_left _ fun body hbody => ?_)
      rw [List.map_flatMap]
      exact .flatMap_left _ fun inner hinner => ih body hbody inner hinner

end Records

/-! ## The walk that passes share -/

/-- What a walk has reached so far. -/
structure Reached where
  exprs : List Expr := []
  stmts : List Stmt := []

/-- Note that the walk has reached an expression. -/
def Expr.reach (e : Expr) : StateM Reached Expr := do
  modify fun reached => { reached with exprs := reached.exprs ++ [e] }
  pure e

/-- Note that the walk has reached a statement. -/
def Stmt.reach (stmt : Stmt) : StateM Reached (List Stmt) := do
  modify fun reached => { reached with stmts := reached.stmts ++ [stmt] }
  pure [stmt]

/-- A walk gives back `value` and reaches these expressions and statements, in some order. -/
def Retraces {α : Type} (walk : StateM Reached α) (value : α) (es : List Expr)
    (stmts : List Stmt) : Prop :=
  ∀ before, ∃ after, walk.run before = (value, after) ∧
    after.exprs.Perm (before.exprs ++ es) ∧ after.stmts.Perm (before.stmts ++ stmts)

namespace Retraces

variable {α β : Type} {first : StateM Reached α} {next : α → StateM Reached β} {value : α}
  {result : β} {es es' : List Expr} {stmts stmts' : List Stmt}

theorem pure (value : α) : Retraces (Pure.pure value) value [] [] :=
  fun before => ⟨before, rfl, .of_eq (List.append_nil _).symm, .of_eq (List.append_nil _).symm⟩

theorem bind (hfirst : Retraces first value es stmts)
    (hnext : Retraces (next value) result es' stmts') :
    Retraces (first >>= next) result (es ++ es') (stmts ++ stmts') := by
  intro before
  obtain ⟨between, hrun, hes, hstmts⟩ := hfirst before
  obtain ⟨after, hrun', hes', hstmts'⟩ := hnext between
  refine ⟨after, ?_, ?_, ?_⟩
  · rw [StateT.run_bind, hrun]
    exact hrun'
  · rw [← List.append_assoc]
    exact hes'.trans (hes.append_right es')
  · rw [← List.append_assoc]
    exact hstmts'.trans (hstmts.append_right stmts')

theorem perm (hwalk : Retraces first value es stmts) (hes : es.Perm es')
    (hstmts : stmts.Perm stmts') : Retraces first value es' stmts' := by
  intro before
  obtain ⟨after, hrun, hafter, hafter'⟩ := hwalk before
  exact ⟨after, hrun, hafter.trans (hes.append_left _), hafter'.trans (hstmts.append_left _)⟩

theorem reachExpr (e : Expr) : Retraces e.reach e [e] [] :=
  fun before => ⟨{ before with exprs := before.exprs ++ [e] }, rfl, .refl _,
    .of_eq (List.append_nil _).symm⟩

theorem reachStmt (stmt : Stmt) : Retraces stmt.reach [stmt] [] [stmt] :=
  fun before => ⟨{ before with stmts := before.stmts ++ [stmt] }, rfl,
    .of_eq (List.append_nil _).symm, .refl _⟩

theorem rebuildAllM {es : List Expr}
    (heach : ∀ e ∈ es, Retraces (e.rebuildM Expr.reach) e e.walk []) :
    Retraces (Expr.rebuildAllM Expr.reach es) es (es.flatMap Expr.walk) [] := by
  induction es with
  | nil => exact pure []
  | cons e es ih =>
      obtain ⟨he, hes⟩ := List.forall_mem_cons.mp heach
      rw [Expr.rebuildAllM, List.flatMap_cons, ← List.append_nil (es.flatMap Expr.walk)]
      exact he.bind ((ih hes).bind (pure (e :: es)))

theorem rebuildExpr (e : Expr) : Retraces (e.rebuildM Expr.reach) e e.walk [] := by
  induction e using Expr.induct with
  | hstep e ih =>
      rw [Expr.rebuildM_eq, Expr.walk_eq]
      have hself := reachExpr e
      nth_rewrite 1 [← e.withChildren_children] at hself
      exact ((rebuildAllM ih).bind hself).perm List.perm_append_comm (.refl _)

theorem rebuildPartM (part : Option Expr) :
    Retraces (Expr.rebuildPartM Expr.reach part) part (part.toList.flatMap Expr.walk) [] := by
  cases part with
  | none => exact pure none
  | some e =>
      rw [Expr.rebuildPartM, Option.toList_some, List.flatMap_cons]
      exact (rebuildExpr e).bind (pure (some e))

theorem rebuildBodyM {body : List Stmt}
    (heach : ∀ stmt ∈ body,
      Retraces (stmt.rebuildM Expr.reach Stmt.reach) [stmt] stmt.walkedExprs stmt.walk) :
    Retraces (Stmt.rebuildBodyM Expr.reach Stmt.reach body) body
      (body.flatMap Stmt.walkedExprs) (body.flatMap Stmt.walk) := by
  induction body with
  | nil => exact pure []
  | cons stmt body ih =>
      obtain ⟨hstmt, hbody⟩ := List.forall_mem_cons.mp heach
      rw [Stmt.rebuildBodyM, List.flatMap_cons, List.flatMap_cons,
        ← List.append_nil (body.flatMap Stmt.walkedExprs),
        ← List.append_nil (body.flatMap Stmt.walk)]
      exact hstmt.bind ((ih hbody).bind (pure (stmt :: body)))

theorem rebuildStmt (stmt : Stmt) :
    Retraces (stmt.rebuildM Expr.reach Stmt.reach) [stmt] stmt.walkedExprs stmt.walk := by
  induction stmt using Stmt.induct with
  | hstep stmt ih =>
      have hself := reachStmt stmt
      rw [Stmt.walkedExprs_eq, Stmt.walk_eq]
      cases stmt with
      | assign span targets value =>
          have htargets := rebuildAllM fun e (_ : e ∈ targets) => rebuildExpr e
          refine perm (htargets.bind ((rebuildExpr value).bind hself)) ?_ (.refl _)
          exact .of_eq (by simp [Stmt.exprs, Stmt.bodies])
      | augAssign span target op value =>
          refine perm ((rebuildExpr target).bind ((rebuildExpr value).bind hself)) ?_ (.refl _)
          exact .of_eq (by simp [Stmt.exprs, Stmt.bodies])
      | forIn span target iter body orelse index =>
          have hbody := rebuildBodyM (ih body (by simp [Stmt.bodies]))
          have horelse := rebuildBodyM (ih orelse (by simp [Stmt.bodies]))
          refine perm ((rebuildExpr target).bind ((rebuildExpr iter).bind
            ((rebuildPartM index).bind (hbody.bind (horelse.bind hself))))) ?_ ?_
          · exact .of_eq (by simp [Stmt.exprs, Stmt.bodies])
          · simp only [Stmt.bodies, List.flatMap_cons, List.flatMap_nil, List.nil_append,
              List.append_nil, ← List.append_assoc]
            exact List.perm_append_singleton _ _
      | whileLoop span test body orelse | branch span test body orelse =>
          have hbody := rebuildBodyM (ih body (by simp [Stmt.bodies]))
          have horelse := rebuildBodyM (ih orelse (by simp [Stmt.bodies]))
          refine perm ((rebuildExpr test).bind (hbody.bind (horelse.bind hself))) ?_ ?_
          · exact .of_eq (by simp [Stmt.exprs, Stmt.bodies])
          · simp only [Stmt.bodies, List.flatMap_cons, List.flatMap_nil, List.nil_append,
              List.append_nil, ← List.append_assoc]
            exact List.perm_append_singleton _ _
      | ret span value =>
          refine perm ((rebuildPartM value).bind hself) ?_ (.refl _)
          exact .of_eq (by simp [Stmt.exprs, Stmt.bodies])
      | expr span value =>
          refine perm ((rebuildExpr value).bind hself) ?_ (.refl _)
          exact .of_eq (by simp [Stmt.exprs, Stmt.bodies])
      | print span values dest newline =>
          have hvalues := rebuildAllM fun e (_ : e ∈ values) => rebuildExpr e
          refine perm ((rebuildPartM dest).bind (hvalues.bind hself)) ?_ (.refl _)
          exact .of_eq (by simp [Stmt.exprs, Stmt.bodies])
      | global | pass | «break» | «continue» => exact hself

theorem rebuildBody (body : List Stmt) :
    Retraces (Stmt.rebuildBodyM Expr.reach Stmt.reach body) body
      (body.flatMap Stmt.walkedExprs) (body.flatMap Stmt.walk) :=
  rebuildBodyM fun stmt _ => rebuildStmt stmt

end Retraces

/-! ## Functions -/

namespace FunctionDef

open Json (records)

variable (func : FunctionDef)

theorem walk_eq_statements : func.walk = func.statements := by
  rw [walk, statements, Stmt.nestedBody_eq_flatMap]
  exact List.flatMap_congr fun stmt _ => stmt.walk_eq_nested

theorem walkedExprs_eq_nodes : func.walkedExprs = func.nodes := by
  have hown (stmt : Stmt) : stmt.exprs.flatMap Expr.walk = stmt.nodes := by
    rw [Stmt.nodes, Expr.nodesAll_eq_flatMap]
    exact List.flatMap_congr fun e _ => e.walk_eq_nodes
  rw [walkedExprs, nodes, ← walk_eq_statements, walk, List.flatMap_assoc]
  refine List.flatMap_congr fun stmt _ => ?_
  rw [Stmt.walkedExprs, List.flatMap_congr fun inner _ => hown inner]

/-- The written form of the body of a function. -/
def bodyJson : Json := .arr (Stmt.toJsonAll func.body)

theorem records_exprs_bodyJson :
    (records Expr.memberNames func.bodyJson).Perm (func.walkedExprs.map Expr.toJson) := by
  rw [bodyJson, Json.records_arr, Expr.memberNames, Stmt.recordsAll_toJsonAll, walkedExprs,
    List.map_flatMap]
  exact .flatMap_left _ fun stmt _ => stmt.records_exprMemberNames

theorem records_stmts_bodyJson :
    (records Stmt.memberNames func.bodyJson).Perm (func.walk.map Stmt.toJson) := by
  rw [bodyJson, Json.records_arr, Stmt.memberNames, Stmt.recordsAll_toJsonAll, walk,
    List.map_flatMap]
  exact .flatMap_left _ fun stmt _ => stmt.records_memberNames

/-- Outside the body only the value returned on errors can hold such objects. -/
theorem records_toJson {rest : List String} :
    records ("kind" :: rest) func.toJson = records ("kind" :: rest) func.bodyJson ++
      (func.errorReturn.bind ErrorReturn.value).toList.flatMap fun e =>
        records ("kind" :: rest) e.toJson := by
  have hvalue : records ("kind" :: rest) (Json.option ErrorReturn.toJson func.errorReturn) =
      (func.errorReturn.bind ErrorReturn.value).toList.flatMap fun e =>
        records ("kind" :: rest) e.toJson := by
    cases func.errorReturn with
    | none => rfl
    | some value =>
        rw [Json.option, ErrorReturn.toJson, Json.records_obj_of_ne (by decide),
          Expr.records_optionToJson]
        exact List.append_nil _
  have htemps : Json.recordsAll ("kind" :: rest) (func.temps.map TempDecl.toJson) = [] := by
    rw [Json.recordsAll_eq_flatMap, List.flatMap_map, List.flatMap_eq_nil_iff]
    intro decl _
    simp [TempDecl.toJson, TempId.toJson, Json.nat, records, Json.recordsMembers,
      Ty.records_toJson]
  rw [toJson, Json.records_obj_of_ne (by decide)]
  simp only [Json.recordsMembers, records, Json.records_strings, Span.records_toJson, hvalue,
    htemps, List.nil_append, List.append_nil, bodyJson]

/-- The walk over the body by direct parts is complete. It meets each statement and expression as
often as the written form of the body has its object, and the walk that rebuilds a function reaches
the same ones. In the written form of the function only the value returned on errors has more. -/
theorem walk_complete :
    (func.walkedExprs.map Expr.toJson).Perm (records Expr.memberNames func.bodyJson) ∧
    (func.walk.map Stmt.toJson).Perm (records Stmt.memberNames func.bodyJson) ∧
    func.walkedExprs.length = (records Expr.memberNames func.bodyJson).length ∧
    func.walk.length = (records Stmt.memberNames func.bodyJson).length ∧
    records Expr.memberNames func.toJson = records Expr.memberNames func.bodyJson ++
      (func.errorReturn.bind ErrorReturn.value).toList.flatMap (·.walk.map Expr.toJson) ∧
    records Stmt.memberNames func.toJson = records Stmt.memberNames func.bodyJson ∧
    func.walkedExprs = func.nodes ∧ func.walk = func.statements ∧
    Retraces (Stmt.rebuildBodyM Expr.reach Stmt.reach func.body) func.body func.walkedExprs
      func.walk := by
  have hexprs := func.records_exprs_bodyJson
  have hstmts := func.records_stmts_bodyJson
  have hlength := hexprs.length_eq
  have hlength' := hstmts.length_eq
  rw [List.length_map] at hlength hlength'
  refine ⟨hexprs.symm, hstmts.symm, hlength.symm, hlength'.symm, ?_, ?_,
    func.walkedExprs_eq_nodes, func.walk_eq_statements, Retraces.rebuildBody func.body⟩
  · rw [Expr.memberNames, records_toJson]
    simp only [← Expr.records_memberNames, Expr.memberNames]
  · rw [Stmt.memberNames, records_toJson, ← Stmt.memberNames]
    simp only [Expr.records_stmtMemberNames, List.flatMap_eq_nil_iff, implies_true,
      List.append_right_eq_self]

end FunctionDef

end KernelFront
