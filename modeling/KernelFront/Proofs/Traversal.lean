import KernelFront.Tree.Traversal

/-! # Facts about walks

The nodes of lists are the nodes of their parts. A walk whose function returns every node as it is
returns the whole tree as it is. Any walk rebuilds the parts of an expression in order, whatever its
form, and then the expression with these parts.
-/

namespace KernelFront

/-- A statement that is no counted loop. -/
def Stmt.Uncounted : Stmt → Prop
  | .forIn _ _ _ _ _ index => index = none
  | _ => True

theorem Stmt.nestedBody_append (first second : List Stmt) :
    nestedBody (first ++ second) = nestedBody first ++ nestedBody second := by
  induction first with
  | nil => rfl
  | cons stmt first ih => simp only [List.cons_append, nestedBody, ih, List.append_assoc]

/-- The statements of a statement: itself, then those of its bodies. -/
theorem Stmt.nested_eq (stmt : Stmt) : stmt.nested = stmt :: stmt.bodies.flatMap nestedBody := by
  cases stmt <;> simp [nested, bodies]

mutual

/-- What holds of every statement if it holds of those in its bodies holds of all statements. -/
theorem Stmt.induct {P : Stmt → Prop}
    (hstep : ∀ stmt : Stmt, (∀ body ∈ stmt.bodies, ∀ inner ∈ body, P inner) → P stmt)
    (stmt : Stmt) : P stmt := by
  refine hstep stmt ?_
  cases stmt with
  | forIn _ _ _ body orelse | whileLoop _ _ body orelse | branch _ _ body orelse =>
      exact List.forall_mem_cons.mpr
        ⟨inductBody hstep body, List.forall_mem_singleton.mpr (inductBody hstep orelse)⟩
  | _ => exact List.forall_mem_nil _
termination_by structural stmt

theorem Stmt.inductBody {P : Stmt → Prop}
    (hstep : ∀ stmt : Stmt, (∀ body ∈ stmt.bodies, ∀ inner ∈ body, P inner) → P stmt)
    (body : List Stmt) : ∀ inner ∈ body, P inner := by
  cases body with
  | nil => exact List.forall_mem_nil _
  | cons stmt body =>
      exact List.forall_mem_cons.mpr ⟨Stmt.induct hstep stmt, Stmt.inductBody hstep body⟩
termination_by structural body

end

namespace Expr

theorem mem_nodes_self (e : Expr) : e ∈ e.nodes := by
  cases e <;> exact List.mem_cons_self

@[simp] theorem nodesAll_append (first second : List Expr) :
    nodesAll (first ++ second) = nodesAll first ++ nodesAll second := by
  induction first with
  | nil => rfl
  | cons e first ih => simp only [List.cons_append, nodesAll, ih, List.append_assoc]

theorem eq_name_of_asName {e : Expr} {name : String} (hname : e.asName = some name) :
    ∃ note access, e = .name note name access := by
  cases e <;> simp only [asName, reduceCtorEq, Option.some.injEq] at hname
  subst hname
  exact ⟨_, _, rfl⟩

theorem mem_nodesAll {node : Expr} {es : List Expr} :
    node ∈ nodesAll es ↔ ∃ e ∈ es, node ∈ e.nodes := by
  induction es with
  | nil => simp [nodesAll]
  | cons e es ih => simp [nodesAll, ih]

@[simp] theorem nodesKeywords_eq (keywords : List (String × Expr)) :
    nodesKeywords keywords = nodesAll (keywords.map Prod.snd) := by
  induction keywords with
  | nil => rfl
  | cons keyword keywords ih => simp only [nodesKeywords, List.map_cons, nodesAll, ih]

@[simp] theorem nodesPart_eq (part : Option Expr) : nodesPart part = nodesAll part.toList := by
  cases part with
  | none => rfl
  | some e => simp only [nodesPart, Option.toList_some, nodesAll, List.append_nil]

/-! ## Parts -/

/-- The same form with other direct sub-expressions. -/
def withChildren : Expr → List Expr → Expr
  | .binOp n _ op _, [left, right] => .binOp n left op right
  | .boolOp n op _, values => .boolOp n op values
  | .unaryOp n op _, [operand] => .unaryOp n op operand
  | .compare n _ ops _, left :: comparators => .compare n left ops comparators
  | .call n _ args keywords, func :: parts =>
      .call n func (parts.take args.length)
        ((keywords.map Prod.fst).zip (parts.drop args.length))
  | .attribute n _ attr a, [value] => .attribute n value attr a
  | .subscript n _ _ a, [value, selector] => .subscript n value selector a
  | .index n _, [value] => .index n value
  | .slice n lower upper step, parts =>
      let rest := parts.drop lower.toList.length
      .slice n (parts.take lower.toList.length).head? (rest.take upper.toList.length).head?
        ((rest.drop upper.toList.length).take step.toList.length).head?
  | .extSlice n _, dims => .extSlice n dims
  | .tuple n _ a, elts => .tuple n elts a
  | .list n _ a, elts => .list n elts a
  | .dict n keys _, parts => .dict n (parts.take keys.length) (parts.drop keys.length)
  | .coercion n _ target, [node] => .coercion n node target
  | .deferredCoercion n _ slot, [node] => .deferredCoercion n node slot
  | .range n _ _ _, [start, stop, step] => .range n start stop step
  | .nativeCall n symbol signature _, args => .nativeCall n symbol signature args
  | .objectCall n _ args keywords, func :: parts =>
      .objectCall n func (parts.take args.length)
        ((keywords.map Prod.fst).zip (parts.drop args.length))
  | .arrayAttribute n attr _ a, [array] => .arrayAttribute n attr array a
  | .dataPointer n _, [array] => .dataPointer n array
  | .objectTemp n _ id, [node] => .objectTemp n node id
  | e, _ => e

@[simp] theorem note_withChildren (e : Expr) (parts : List Expr) :
    (e.withChildren parts).note = e.note := by
  unfold withChildren
  split <;> rfl

theorem children_withChildren {e : Expr} {parts : List Expr}
    (hlength : parts.length = e.children.length) : (e.withChildren parts).children = parts := by
  cases e with
  | name | const | ellipsis | temp => exact (List.eq_nil_of_length_eq_zero hlength).symm
  | boolOp | extSlice | tuple | list | nativeCall => rfl
  | unaryOp | «attribute» | index | coercion | deferredCoercion | arrayAttribute | dataPointer
  | objectTemp =>
      obtain ⟨part, rfl⟩ := List.length_eq_one_iff.mp hlength
      rfl
  | binOp | subscript =>
      obtain ⟨first, rest, rfl⟩ := List.exists_cons_of_length_eq_add_one hlength
      obtain ⟨second, rfl⟩ := List.length_eq_one_iff.mp (Nat.succ.inj hlength)
      rfl
  | range =>
      obtain ⟨start, rest, rfl⟩ := List.exists_cons_of_length_eq_add_one hlength
      obtain ⟨stop, rest, rfl⟩ := List.exists_cons_of_length_eq_add_one (Nat.succ.inj hlength)
      obtain ⟨step, rfl⟩ := List.length_eq_one_iff.mp (Nat.succ.inj (Nat.succ.inj hlength))
      rfl
  | compare =>
      obtain ⟨left, comparators, rfl⟩ := List.exists_cons_of_length_eq_add_one hlength
      rfl
  | call note func args keywords | objectCall note func args keywords =>
      obtain ⟨part, parts, rfl⟩ := List.exists_cons_of_length_eq_add_one hlength
      have hvalues : (parts.drop args.length).length ≤ (keywords.map Prod.fst).length := by
        simp [children] at hlength ⊢
        omega
      simp only [withChildren, children, List.map_snd_zip hvalues, List.take_append_drop]
  | slice note lower upper step =>
      cases lower <;> cases upper <;> cases step <;>
        rcases parts with _ | ⟨_, _ | ⟨_, _ | ⟨_, _ | ⟨_, _⟩⟩⟩⟩ <;>
        first | rfl | simp [children] at hlength
  | dict note keys values => exact List.take_append_drop _ _

theorem withChildren_children (e : Expr) : e.withChildren e.children = e := by
  cases e with
  | call note func args keywords | objectCall note func args keywords =>
      have hkeywords : (keywords.map Prod.fst).zip (keywords.map Prod.snd) = keywords := by
        induction keywords with
        | nil => rfl
        | cons keyword keywords ih => simp [ih]
      simp [withChildren, children, hkeywords]
  | slice note lower upper step => cases lower <;> cases upper <;> cases step <;> rfl
  | dict => simp [withChildren, children]
  | _ => rfl

/-- The nodes of an expression: itself, then those of its parts. -/
theorem nodes_eq (e : Expr) : e.nodes = e :: nodesAll e.children := by
  cases e <;> simp [nodes, children, nodesAll]

theorem mem_nodes_of_part {e part node : Expr} (hpart : part ∈ e.children)
    (hnode : node ∈ part.nodes) : node ∈ e.nodes := by
  rw [nodes_eq]
  exact List.mem_cons_of_mem e (mem_nodesAll.mpr ⟨part, hpart, hnode⟩)

mutual

/-- What holds of every expression whose parts it holds of holds of all expressions. -/
theorem induct {P : Expr → Prop} (hstep : ∀ e : Expr, (∀ part ∈ e.children, P part) → P e)
    (e : Expr) : P e := by
  refine hstep e ?_
  cases e with
  | name | const | ellipsis | temp => exact List.forall_mem_nil _
  | unaryOp _ _ part | «attribute» _ part | index _ part | coercion _ part | deferredCoercion _ part
  | arrayAttribute _ _ part | dataPointer _ part | objectTemp _ part =>
      exact List.forall_mem_singleton.mpr (induct hstep part)
  | binOp _ first _ second | subscript _ first second =>
      exact List.forall_mem_cons.mpr
        ⟨induct hstep first, List.forall_mem_singleton.mpr (induct hstep second)⟩
  | range _ first second third =>
      exact List.forall_mem_cons.mpr ⟨induct hstep first, List.forall_mem_cons.mpr
        ⟨induct hstep second, List.forall_mem_singleton.mpr (induct hstep third)⟩⟩
  | boolOp _ _ parts | extSlice _ parts | tuple _ parts | list _ parts | nativeCall _ _ _ parts =>
      exact inductAll hstep parts
  | compare _ first _ parts =>
      exact List.forall_mem_cons.mpr ⟨induct hstep first, inductAll hstep parts⟩
  | dict _ keys values =>
      exact List.forall_mem_append.mpr ⟨inductAll hstep keys, inductAll hstep values⟩
  | call _ func args keywords | objectCall _ func args keywords =>
      exact List.forall_mem_cons.mpr ⟨induct hstep func,
        List.forall_mem_append.mpr ⟨inductAll hstep args, inductKeywords hstep keywords⟩⟩
  | slice _ lower upper step =>
      exact List.forall_mem_append.mpr ⟨List.forall_mem_append.mpr
        ⟨inductPart hstep lower, inductPart hstep upper⟩, inductPart hstep step⟩
termination_by structural e

theorem inductAll {P : Expr → Prop} (hstep : ∀ e : Expr, (∀ part ∈ e.children, P part) → P e)
    (es : List Expr) : ∀ e ∈ es, P e := by
  cases es with
  | nil => exact List.forall_mem_nil _
  | cons e es => exact List.forall_mem_cons.mpr ⟨induct hstep e, inductAll hstep es⟩
termination_by structural es

theorem inductKeywords {P : Expr → Prop}
    (hstep : ∀ e : Expr, (∀ part ∈ e.children, P part) → P e) (keywords : List (String × Expr)) :
    ∀ e ∈ keywords.map Prod.snd, P e := by
  cases keywords with
  | nil => exact List.forall_mem_nil _
  | cons keyword keywords =>
      obtain ⟨_, e⟩ := keyword
      exact List.forall_mem_cons.mpr ⟨induct hstep e, inductKeywords hstep keywords⟩
termination_by structural keywords

theorem inductPart {P : Expr → Prop} (hstep : ∀ e : Expr, (∀ part ∈ e.children, P part) → P e)
    (part : Option Expr) : ∀ e ∈ part.toList, P e := by
  cases part with
  | none => exact List.forall_mem_nil _
  | some e => exact List.forall_mem_singleton.mpr (induct hstep e)
termination_by structural part

end

/-! ## Walks -/

variable {m : Type → Type} [Monad m] [LawfulMonad m]

mutual

@[simp] theorem rebuildM_pure (e : Expr) : rebuildM (m := m) pure e = pure e := by
  cases e with
  | name | const | ellipsis | temp => simp only [rebuildM]
  | _ =>
      simp only [rebuildM, rebuildM_pure, rebuildAllM_pure, rebuildKeywordsM_pure,
        rebuildPartM_pure, pure_bind]

@[simp] theorem rebuildAllM_pure (es : List Expr) : rebuildAllM (m := m) pure es = pure es := by
  cases es with
  | nil => simp only [rebuildAllM]
  | cons e es => simp only [rebuildAllM, rebuildM_pure e, rebuildAllM_pure es, pure_bind]

@[simp] theorem rebuildKeywordsM_pure (keywords : List (String × Expr)) :
    rebuildKeywordsM (m := m) pure keywords = pure keywords := by
  cases keywords with
  | nil => simp only [rebuildKeywordsM]
  | cons keyword keywords =>
      obtain ⟨arg, e⟩ := keyword
      simp only [rebuildKeywordsM, rebuildM_pure e, rebuildKeywordsM_pure keywords, pure_bind]

@[simp] theorem rebuildPartM_pure (part : Option Expr) :
    rebuildPartM (m := m) pure part = pure part := by
  cases part with
  | none => simp only [rebuildPartM]
  | some e => simp only [rebuildPartM, rebuildM_pure e, pure_bind]

end

theorem rebuildAllM_append (f : Expr → m Expr) (first second : List Expr) :
    rebuildAllM f (first ++ second) =
      rebuildAllM f first >>= fun first => (first ++ ·) <$> rebuildAllM f second := by
  induction first with
  | nil => simp [rebuildAllM]
  | cons e first ih => simp [rebuildAllM, ih]

theorem rebuildKeywordsM_eq (f : Expr → m Expr) (keywords : List (String × Expr)) :
    rebuildKeywordsM f keywords =
      (keywords.map Prod.fst).zip <$> rebuildAllM f (keywords.map Prod.snd) := by
  induction keywords with
  | nil => simp [rebuildKeywordsM, rebuildAllM]
  | cons keyword keywords ih =>
      obtain ⟨name, e⟩ := keyword
      simp [rebuildKeywordsM, rebuildAllM, ih]

theorem rebuildPartM_eq (f : Expr → m Expr) (part : Option Expr) :
    rebuildPartM f part = List.head? <$> rebuildAllM f part.toList := by
  cases part <;> simp [rebuildPartM, rebuildAllM]

/-- Rebuilding several expressions leaves as many, so what follows may rely on their number. -/
theorem rebuildAllM_bind_congr {α : Type} {f : Expr → m Expr} {es : List Expr}
    {next other : List Expr → m α}
    (hnext : ∀ parts, parts.length = es.length → next parts = other parts) :
    rebuildAllM f es >>= next = rebuildAllM f es >>= other := by
  induction es generalizing next other with
  | nil => simp [rebuildAllM, hnext]
  | cons e es ih =>
      simp only [rebuildAllM, bind_assoc, pure_bind]
      refine bind_congr fun e' => ih fun parts hparts => hnext _ ?_
      simp [hparts]

/-- Rebuilding an expression: its parts in order, then the same form with these parts. -/
theorem rebuildM_eq (f : Expr → m Expr) (e : Expr) :
    rebuildM f e = rebuildAllM f e.children >>= fun parts => f (e.withChildren parts) := by
  cases e with
  | call note func args keywords | objectCall note func args keywords =>
      simp only [rebuildM, children, rebuildAllM, rebuildAllM_append, rebuildKeywordsM_eq,
        bind_assoc, bind_map_left, pure_bind]
      refine bind_congr fun func => rebuildAllM_bind_congr fun args' hargs => ?_
      simp only [withChildren, ← hargs, List.take_left', List.drop_left']
  | dict note keys values =>
      simp only [rebuildM, children, rebuildAllM_append, bind_assoc, bind_map_left]
      refine rebuildAllM_bind_congr fun keys' hkeys => ?_
      simp only [withChildren, ← hkeys, List.take_left', List.drop_left']
  | slice note lower upper step =>
      simp only [rebuildM, children, rebuildAllM_append, rebuildPartM_eq, bind_assoc, bind_map_left]
      refine rebuildAllM_bind_congr fun lower' hlower => ?_
      refine rebuildAllM_bind_congr fun upper' hupper => ?_
      refine rebuildAllM_bind_congr fun step' hstep => ?_
      simp [withChildren, ← hlower, ← hupper, ← hstep]
  | _ => simp [rebuildM, rebuildAllM, children, withChildren]

end Expr

/-! ## Properties of walks -/

/-- A property of computations that composition keeps. -/
structure Composable {m : Type → Type} [Monad m] (Safe : ∀ α : Type, m α → Prop) : Prop where
  pure : ∀ {α : Type} (value : α), Safe α (pure value)
  bind : ∀ {α β : Type} {first : m α} {next : α → m β}, Safe α first →
    (∀ value, Safe β (next value)) → Safe β (first >>= next)

namespace Composable

variable {m : Type → Type} [Monad m] {Safe : ∀ α : Type, m α → Prop} {f : Expr → m Expr}

theorem rebuildAllM (hsafe : Composable Safe) {es : List Expr}
    (heach : ∀ e ∈ es, Safe _ (e.rebuildM f)) : Safe _ (Expr.rebuildAllM f es) := by
  induction es with
  | nil => exact hsafe.pure []
  | cons e es ih =>
      obtain ⟨he, hes⟩ := List.forall_mem_cons.mp heach
      exact hsafe.bind he fun e' => hsafe.bind (ih hes) fun es' => hsafe.pure _

theorem rebuildPartM (hsafe : Composable Safe) {part : Option Expr}
    (heach : ∀ e ∈ part.toList, Safe _ (e.rebuildM f)) : Safe _ (Expr.rebuildPartM f part) := by
  cases part with
  | none => exact hsafe.pure none
  | some e => exact hsafe.bind (heach e (List.mem_singleton_self e)) fun e' => hsafe.pure _

/-- A walk is safe if it is safe to rebuild every node, whatever its parts became. -/
theorem rebuildM [LawfulMonad m] (hsafe : Composable Safe) {e : Expr}
    (hnodes : ∀ node ∈ e.nodes, ∀ parts, Safe _ (f (node.withChildren parts))) :
    Safe _ (e.rebuildM f) := by
  induction e using Expr.induct with
  | hstep e ih =>
      rw [Expr.nodes_eq] at hnodes
      obtain ⟨hself, hbelow⟩ := List.forall_mem_cons.mp hnodes
      rw [Expr.rebuildM_eq]
      refine hsafe.bind (hsafe.rebuildAllM fun part hpart => ih part hpart ?_) hself
      exact fun node hnode => hbelow node (Expr.mem_nodesAll.mpr ⟨part, hpart, hnode⟩)

variable {g : Stmt → m (List Stmt)}

mutual

/-- A walk over a statement is safe if it is safe to rebuild the expressions and the statements. -/
theorem rebuildStmt (hsafe : Composable Safe) {stmt : Stmt} (hstmts : ∀ stmt, Safe _ (g stmt))
    (hexprs : ∀ inner ∈ stmt.nested, ∀ e ∈ inner.exprs, Safe _ (e.rebuildM f)) :
    Safe _ (stmt.rebuildM f g) := by
  cases stmt with
  | assign span targets value =>
      have hself := List.forall_mem_append.mp (hexprs _ List.mem_cons_self)
      refine hsafe.bind (hsafe.rebuildAllM hself.1) fun targets' => ?_
      exact hsafe.bind (hself.2 value List.mem_cons_self) fun value' => hstmts _
  | augAssign span target op value =>
      have hself := List.forall_mem_cons.mp (hexprs _ List.mem_cons_self)
      refine hsafe.bind hself.1 fun target' => ?_
      exact hsafe.bind (hself.2 value List.mem_cons_self) fun value' => hstmts _
  | forIn span target iter body orelse index =>
      obtain ⟨hself, hbodies⟩ := List.forall_mem_cons.mp hexprs
      obtain ⟨hbody, horelse⟩ := List.forall_mem_append.mp hbodies
      obtain ⟨htarget, hrest⟩ := List.forall_mem_cons.mp hself
      obtain ⟨hiter, hindex⟩ := List.forall_mem_cons.mp hrest
      refine hsafe.bind htarget fun target' => hsafe.bind hiter fun iter' => ?_
      refine hsafe.bind (hsafe.rebuildPartM hindex) fun index' => ?_
      refine hsafe.bind (rebuildBody hsafe hstmts hbody) fun body' => ?_
      exact hsafe.bind (rebuildBody hsafe hstmts horelse) fun orelse' => hstmts _
  | whileLoop span test body orelse | branch span test body orelse =>
      obtain ⟨hself, hbodies⟩ := List.forall_mem_cons.mp hexprs
      obtain ⟨hbody, horelse⟩ := List.forall_mem_append.mp hbodies
      refine hsafe.bind (hself test List.mem_cons_self) fun test' => ?_
      refine hsafe.bind (rebuildBody hsafe hstmts hbody) fun body' => ?_
      exact hsafe.bind (rebuildBody hsafe hstmts horelse) fun orelse' => hstmts _
  | ret span value =>
      have hself := hexprs _ List.mem_cons_self
      exact hsafe.bind (hsafe.rebuildPartM hself) fun value' => hstmts _
  | expr span value =>
      have hself := hexprs _ List.mem_cons_self
      exact hsafe.bind (hself value List.mem_cons_self) fun value' => hstmts _
  | print span values dest newline =>
      have hself := List.forall_mem_append.mp (hexprs _ List.mem_cons_self)
      refine hsafe.bind (hsafe.rebuildPartM hself.1) fun dest' => ?_
      exact hsafe.bind (hsafe.rebuildAllM hself.2) fun values' => hstmts _
  | _ => exact hstmts _
termination_by structural stmt

theorem rebuildBody (hsafe : Composable Safe) {body : List Stmt} (hstmts : ∀ stmt, Safe _ (g stmt))
    (hexprs : ∀ inner ∈ Stmt.nestedBody body, ∀ e ∈ inner.exprs, Safe _ (e.rebuildM f)) :
    Safe _ (Stmt.rebuildBodyM f g body) := by
  cases body with
  | nil => exact hsafe.pure []
  | cons stmt body =>
      obtain ⟨hstmt, hbody⟩ := List.forall_mem_append.mp hexprs
      refine hsafe.bind (rebuildStmt hsafe hstmts hstmt) fun stmts => ?_
      exact hsafe.bind (rebuildBody hsafe hstmts hbody) fun rest => hsafe.pure _
termination_by structural body

end

end Composable

end KernelFront
