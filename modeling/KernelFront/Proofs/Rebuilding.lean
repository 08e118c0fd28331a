import KernelFront.Proofs.Traversal
import Mathlib.Data.List.Forall2

/-! # What walks rebuild

A walk is judged by what it does at single nodes and statements. If every node is rebuilt as a
relation allows, given parts that were rebuilt so, then every expression is; and if every statement
becomes good statements, given expressions that were rebuilt so and bodies of good statements, then
a whole body consists of good statements. The judgement may say anything about the values of
computations that composition respects: that of all outcomes, or of all outcomes that keep an
invariant of a state. Two walks that do the same at single nodes and statements are judged together:
a coupling says that both come to the same good values.
-/

namespace KernelFront

/-- A judgement about the values of computations that composition respects. -/
structure Judgement {m : Type → Type} [Monad m]
    (Gives : ∀ α : Type, m α → (α → Prop) → Prop) : Prop where
  pure : ∀ {α : Type} {good : α → Prop} {value : α}, good value → Gives α (pure value) good
  bind : ∀ {α β : Type} {good : α → Prop} {last : β → Prop} {first : m α} {next : α → m β},
    Gives α first good → (∀ value, good value → Gives β (next value) last) →
      Gives β (first >>= next) last

/-- A judgement about two computations that come to the same values, which composition respects. -/
structure Coupling {m n : Type → Type} [Monad m] [Monad n]
    (Gives : ∀ α : Type, m α → n α → (α → Prop) → Prop) : Prop where
  pure : ∀ {α : Type} {good : α → Prop} {value : α}, good value →
    Gives α (pure value) (pure value) good
  bind : ∀ {α β : Type} {good : α → Prop} {last : β → Prop} {first : m α} {other : n α}
    {next : α → m β} {further : α → n β}, Gives α first other good →
      (∀ value, good value → Gives β (next value) (further value) last) →
        Gives β (first >>= next) (other >>= further) last

/-- A statement was rebuilt from its parts: its expressions are related to those of the original,
and its bodies are new. -/
inductive Stmt.Reshaped (Rel : Expr → Expr → Prop) : Stmt → Stmt → Prop where
  | assign {span : Span} {targets targets' : List Expr} {value value' : Expr}
      (htargets : List.Forall₂ Rel targets targets') (hvalue : Rel value value') :
      Reshaped Rel (.assign span targets value) (.assign span targets' value')
  | augAssign {span : Span} {target target' : Expr} {op : BinOp} {value value' : Expr}
      (htarget : Rel target target') (hvalue : Rel value value') :
      Reshaped Rel (.augAssign span target op value) (.augAssign span target' op value')
  | forIn {span : Span} {target target' iter iter' : Expr} {body body' orelse orelse' : List Stmt}
      {index index' : Option Expr} (htarget : Rel target target') (hiter : Rel iter iter')
      (hindex : List.Forall₂ Rel index.toList index'.toList)
      (horelse : orelse = [] → orelse' = []) :
      Reshaped Rel (.forIn span target iter body orelse index)
        (.forIn span target' iter' body' orelse' index')
  | whileLoop {span : Span} {test test' : Expr} {body body' orelse orelse' : List Stmt}
      (htest : Rel test test') (horelse : orelse = [] → orelse' = []) :
      Reshaped Rel (.whileLoop span test body orelse) (.whileLoop span test' body' orelse')
  | branch {span : Span} {test test' : Expr} {body body' orelse orelse' : List Stmt}
      (htest : Rel test test') :
      Reshaped Rel (.branch span test body orelse) (.branch span test' body' orelse')
  | ret {span : Span} {value value' : Option Expr}
      (hvalue : List.Forall₂ Rel value.toList value'.toList) :
      Reshaped Rel (.ret span value) (.ret span value')
  | expr {span : Span} {value value' : Expr} (hvalue : Rel value value') :
      Reshaped Rel (.expr span value) (.expr span value')
  | print {span : Span} {values values' : List Expr} {dest dest' : Option Expr} {newline : Bool}
      (hvalues : List.Forall₂ Rel values values')
      (hdest : List.Forall₂ Rel dest.toList dest'.toList) :
      Reshaped Rel (.print span values dest newline) (.print span values' dest' newline)
  | global {span : Span} {names : List String} :
      Reshaped Rel (.global span names) (.global span names)
  | pass {span : Span} : Reshaped Rel (.pass span) (.pass span)
  | break {span : Span} : Reshaped Rel (.break span) (.break span)
  | continue {span : Span} : Reshaped Rel (.continue span) (.continue span)

theorem forall_of_forall₂ {α β : Type} {Rel : α → β → Prop} {Good : β → Prop} {first : List α}
    {second : List β} (hgood : ∀ a ∈ first, ∀ b, Rel a b → Good b)
    (hrel : List.Forall₂ Rel first second) : ∀ b ∈ second, Good b := by
  induction hrel with
  | nil => exact List.forall_mem_nil _
  | cons hhead _ ih =>
      obtain ⟨hfirst, hrest⟩ := List.forall_mem_cons.mp hgood
      exact List.forall_mem_cons.mpr ⟨hfirst _ hhead, ih hrest⟩

namespace Stmt

/-- What holds of every rebuilt expression holds of those of a rebuilt statement. -/
theorem Reshaped.forall_exprs {Rel : Expr → Expr → Prop} {Good : Expr → Prop} {stmt rebuilt : Stmt}
    (hgood : ∀ e ∈ stmt.exprs, ∀ e', Rel e e' → Good e') (hreshaped : stmt.Reshaped Rel rebuilt) :
    ∀ e ∈ rebuilt.exprs, Good e := by
  cases hreshaped with
  | assign htargets hvalue =>
      obtain ⟨hgoods, hlast⟩ := List.forall_mem_append.mp hgood
      exact List.forall_mem_append.mpr ⟨forall_of_forall₂ hgoods htargets,
        List.forall_mem_singleton.mpr (hlast _ List.mem_cons_self _ hvalue)⟩
  | augAssign htarget hvalue =>
      obtain ⟨hfirst, hlast⟩ := List.forall_mem_cons.mp hgood
      exact List.forall_mem_cons.mpr ⟨hfirst _ htarget,
        List.forall_mem_singleton.mpr (hlast _ List.mem_cons_self _ hvalue)⟩
  | forIn htarget hiter hindex =>
      obtain ⟨hfirst, hrest⟩ := List.forall_mem_cons.mp hgood
      obtain ⟨hsecond, hlast⟩ := List.forall_mem_cons.mp hrest
      exact List.forall_mem_cons.mpr ⟨hfirst _ htarget,
        List.forall_mem_cons.mpr ⟨hsecond _ hiter, forall_of_forall₂ hlast hindex⟩⟩
  | whileLoop htest | branch htest =>
      exact List.forall_mem_singleton.mpr (hgood _ List.mem_cons_self _ htest)
  | ret hvalue => exact forall_of_forall₂ hgood hvalue
  | expr hvalue => exact List.forall_mem_singleton.mpr (hgood _ List.mem_cons_self _ hvalue)
  | print hvalues hdest =>
      obtain ⟨hgoods, hlast⟩ := List.forall_mem_append.mp hgood
      exact List.forall_mem_append.mpr
        ⟨forall_of_forall₂ hgoods hdest, forall_of_forall₂ hlast hvalues⟩
  | _ => exact List.forall_mem_nil _

/-- A statement and the statements of good bodies. -/
theorem forall_nested {Good : Stmt → Prop} {stmt : Stmt} (hself : Good stmt)
    (hbodies : ∀ body ∈ stmt.bodies, ∀ inner ∈ nestedBody body, Good inner) :
    ∀ inner ∈ nestedBody [stmt], Good inner := by
  rw [nestedBody, nestedBody, List.append_nil]
  cases stmt with
  | forIn | whileLoop | branch =>
      obtain ⟨hbody, hrest⟩ := List.forall_mem_cons.mp hbodies
      exact List.forall_mem_cons.mpr
        ⟨hself, List.forall_mem_append.mpr ⟨hbody, hrest _ List.mem_cons_self⟩⟩
  | _ => exact List.forall_mem_singleton.mpr hself

end Stmt

/-- A body became good statements at every depth; an empty one stays empty. -/
structure Stmt.Becomes (Good : Stmt → Prop) (body result : List Stmt) : Prop where
  empty : body = [] → result = []
  good : ∀ stmt ∈ nestedBody result, Good stmt

namespace Coupling

variable {m n : Type → Type} [Monad m] [Monad n]
  {Gives : ∀ α : Type, m α → n α → (α → Prop) → Prop}
  {f : Expr → m Expr} {g : Expr → n Expr} {Rel : Expr → Expr → Prop}

theorem rebuildAllM (hcouples : Coupling Gives) {es : List Expr}
    (heach : ∀ e ∈ es, Gives _ (e.rebuildM f) (e.rebuildM g) (Rel e)) :
    Gives _ (Expr.rebuildAllM f es) (Expr.rebuildAllM g es) (List.Forall₂ Rel es) := by
  induction es with
  | nil => exact hcouples.pure .nil
  | cons e es ih =>
      obtain ⟨he, hes⟩ := List.forall_mem_cons.mp heach
      refine hcouples.bind he fun e' he' => hcouples.bind (ih hes) fun es' hes' => ?_
      exact hcouples.pure (.cons he' hes')

theorem rebuildPartM (hcouples : Coupling Gives) {part : Option Expr}
    (heach : ∀ e ∈ part.toList, Gives _ (e.rebuildM f) (e.rebuildM g) (Rel e)) :
    Gives _ (Expr.rebuildPartM f part) (Expr.rebuildPartM g part)
      (fun result => List.Forall₂ Rel part.toList result.toList) := by
  cases part with
  | none => exact hcouples.pure .nil
  | some e =>
      refine hcouples.bind (heach e (List.mem_singleton_self e)) fun e' he' => ?_
      exact hcouples.pure (.cons he' .nil)

/-- An expression is rebuilt as the relation allows if each of its nodes is. -/
theorem rebuildM [LawfulMonad m] [LawfulMonad n] (hcouples : Coupling Gives) {e : Expr}
    (hnodes : ∀ node ∈ e.nodes, ∀ parts, List.Forall₂ Rel node.children parts →
      Gives _ (f (node.withChildren parts)) (g (node.withChildren parts)) (Rel node)) :
    Gives _ (e.rebuildM f) (e.rebuildM g) (Rel e) := by
  induction e using Expr.induct with
  | hstep e ih =>
      rw [Expr.nodes_eq] at hnodes
      obtain ⟨hself, hbelow⟩ := List.forall_mem_cons.mp hnodes
      rw [Expr.rebuildM_eq, Expr.rebuildM_eq]
      refine hcouples.bind (hcouples.rebuildAllM fun part hpart => ih part hpart ?_) hself
      exact fun node hnode => hbelow node (Expr.mem_nodesAll.mpr ⟨part, hpart, hnode⟩)

variable {h : Stmt → m (List Stmt)} {k : Stmt → n (List Stmt)} {Good : Stmt → Prop}

mutual

/-- A statement becomes good statements if each of its statements does. -/
theorem rebuildStmt (hcouples : Coupling Gives) {stmt : Stmt}
    (hexprs : ∀ inner ∈ stmt.nested, ∀ e ∈ inner.exprs,
      Gives _ (e.rebuildM f) (e.rebuildM g) (Rel e))
    (hstmts : ∀ inner ∈ stmt.nested, ∀ rebuilt, inner.Reshaped Rel rebuilt →
      (∀ body ∈ rebuilt.bodies, ∀ s ∈ Stmt.nestedBody body, Good s) →
        Gives _ (h rebuilt) (k rebuilt) (fun result => ∀ s ∈ Stmt.nestedBody result, Good s)) :
    Gives _ (stmt.rebuildM f h) (stmt.rebuildM g k)
      (fun result => ∀ s ∈ Stmt.nestedBody result, Good s) := by
  cases stmt with
  | assign span targets value =>
      have hself := List.forall_mem_append.mp (hexprs _ List.mem_cons_self)
      have hlast := hself.2 value List.mem_cons_self
      refine hcouples.bind (hcouples.rebuildAllM hself.1) fun targets' htargets => ?_
      refine hcouples.bind hlast fun value' hvalue => ?_
      exact hstmts _ List.mem_cons_self _ (.assign htargets hvalue) (List.forall_mem_nil _)
  | augAssign span target op value =>
      have hself := List.forall_mem_cons.mp (hexprs _ List.mem_cons_self)
      have hlast := hself.2 value List.mem_cons_self
      refine hcouples.bind hself.1 fun target' htarget => ?_
      refine hcouples.bind hlast fun value' hvalue => ?_
      exact hstmts _ List.mem_cons_self _ (.augAssign htarget hvalue) (List.forall_mem_nil _)
  | forIn span target iter body orelse index =>
      obtain ⟨hself, hbodies⟩ := List.forall_mem_cons.mp hexprs
      obtain ⟨hbody, horelse⟩ := List.forall_mem_append.mp hbodies
      obtain ⟨htarget, hrest⟩ := List.forall_mem_cons.mp hself
      obtain ⟨hiter, hindex⟩ := List.forall_mem_cons.mp hrest
      obtain ⟨hstmt, hinner⟩ := List.forall_mem_cons.mp hstmts
      obtain ⟨hbodyStmts, horelseStmts⟩ := List.forall_mem_append.mp hinner
      refine hcouples.bind htarget fun target' htarget => ?_
      refine hcouples.bind hiter fun iter' hiter => ?_
      refine hcouples.bind (hcouples.rebuildPartM hindex) fun index' hindex => ?_
      refine hcouples.bind (rebuildBody hcouples hbody hbodyStmts) fun body' hbody => ?_
      refine hcouples.bind (rebuildBody hcouples horelse horelseStmts) fun orelse' horelse => ?_
      exact hstmt _ (.forIn htarget hiter hindex horelse.empty)
        (List.forall_mem_cons.mpr ⟨hbody.good, List.forall_mem_singleton.mpr horelse.good⟩)
  | whileLoop span test body orelse =>
      obtain ⟨hself, hbodies⟩ := List.forall_mem_cons.mp hexprs
      obtain ⟨hbody, horelse⟩ := List.forall_mem_append.mp hbodies
      obtain ⟨hstmt, hinner⟩ := List.forall_mem_cons.mp hstmts
      obtain ⟨hbodyStmts, horelseStmts⟩ := List.forall_mem_append.mp hinner
      refine hcouples.bind (hself test List.mem_cons_self) fun test' htest => ?_
      refine hcouples.bind (rebuildBody hcouples hbody hbodyStmts) fun body' hbody => ?_
      refine hcouples.bind (rebuildBody hcouples horelse horelseStmts) fun orelse' horelse => ?_
      exact hstmt _ (.whileLoop htest horelse.empty)
        (List.forall_mem_cons.mpr ⟨hbody.good, List.forall_mem_singleton.mpr horelse.good⟩)
  | branch span test body orelse =>
      obtain ⟨hself, hbodies⟩ := List.forall_mem_cons.mp hexprs
      obtain ⟨hbody, horelse⟩ := List.forall_mem_append.mp hbodies
      obtain ⟨hstmt, hinner⟩ := List.forall_mem_cons.mp hstmts
      obtain ⟨hbodyStmts, horelseStmts⟩ := List.forall_mem_append.mp hinner
      refine hcouples.bind (hself test List.mem_cons_self) fun test' htest => ?_
      refine hcouples.bind (rebuildBody hcouples hbody hbodyStmts) fun body' hbody => ?_
      refine hcouples.bind (rebuildBody hcouples horelse horelseStmts) fun orelse' horelse => ?_
      exact hstmt _ (.branch htest)
        (List.forall_mem_cons.mpr ⟨hbody.good, List.forall_mem_singleton.mpr horelse.good⟩)
  | ret span value =>
      have hself := hexprs _ List.mem_cons_self
      refine hcouples.bind (hcouples.rebuildPartM hself) fun value' hvalue => ?_
      exact hstmts _ List.mem_cons_self _ (.ret hvalue) (List.forall_mem_nil _)
  | expr span value =>
      have hself := hexprs _ List.mem_cons_self
      refine hcouples.bind (hself value List.mem_cons_self) fun value' hvalue => ?_
      exact hstmts _ List.mem_cons_self _ (.expr hvalue) (List.forall_mem_nil _)
  | print span values dest newline =>
      have hself := List.forall_mem_append.mp (hexprs _ List.mem_cons_self)
      refine hcouples.bind (hcouples.rebuildPartM hself.1) fun dest' hdest => ?_
      refine hcouples.bind (hcouples.rebuildAllM hself.2) fun values' hvalues => ?_
      exact hstmts _ List.mem_cons_self _ (.print hvalues hdest) (List.forall_mem_nil _)
  | global => exact hstmts _ List.mem_cons_self _ .global (List.forall_mem_nil _)
  | pass => exact hstmts _ List.mem_cons_self _ .pass (List.forall_mem_nil _)
  | «break» => exact hstmts _ List.mem_cons_self _ .break (List.forall_mem_nil _)
  | «continue» => exact hstmts _ List.mem_cons_self _ .continue (List.forall_mem_nil _)
termination_by structural stmt

/-- A body becomes good statements if each of its statements does. -/
theorem rebuildBody (hcouples : Coupling Gives) {body : List Stmt}
    (hexprs : ∀ inner ∈ Stmt.nestedBody body, ∀ e ∈ inner.exprs,
      Gives _ (e.rebuildM f) (e.rebuildM g) (Rel e))
    (hstmts : ∀ inner ∈ Stmt.nestedBody body, ∀ rebuilt, inner.Reshaped Rel rebuilt →
      (∀ body ∈ rebuilt.bodies, ∀ s ∈ Stmt.nestedBody body, Good s) →
        Gives _ (h rebuilt) (k rebuilt) (fun result => ∀ s ∈ Stmt.nestedBody result, Good s)) :
    Gives _ (Stmt.rebuildBodyM f h body) (Stmt.rebuildBodyM g k body) (Stmt.Becomes Good body) := by
  cases body with
  | nil => exact hcouples.pure ⟨fun _ => rfl, List.forall_mem_nil _⟩
  | cons stmt body =>
      obtain ⟨hstmt, hbody⟩ := List.forall_mem_append.mp hexprs
      obtain ⟨hstmtStmts, hbodyStmts⟩ := List.forall_mem_append.mp hstmts
      refine hcouples.bind (rebuildStmt hcouples hstmt hstmtStmts) fun stmts hgood => ?_
      refine hcouples.bind (rebuildBody hcouples hbody hbodyStmts) fun rest hrest => ?_
      refine hcouples.pure ⟨fun hempty => absurd hempty (List.cons_ne_nil _ _), ?_⟩
      rw [Stmt.nestedBody_append]
      exact List.forall_mem_append.mpr ⟨hgood, hrest.good⟩
termination_by structural body

end

end Coupling

namespace Judgement

variable {m : Type → Type} [Monad m] {Gives : ∀ α : Type, m α → (α → Prop) → Prop}
  {f : Expr → m Expr} {Rel : Expr → Expr → Prop}

/-- A computation is coupled with itself. -/
theorem coupling (hjudges : Judgement Gives) :
    Coupling fun (α : Type) (first _ : m α) (good : α → Prop) => Gives α first good :=
  ⟨hjudges.pure, hjudges.bind⟩

/-- An expression is rebuilt as the relation allows if each of its nodes is. -/
theorem rebuildM [LawfulMonad m] (hjudges : Judgement Gives) {e : Expr}
    (hnodes : ∀ node ∈ e.nodes, ∀ parts, List.Forall₂ Rel node.children parts →
      Gives _ (f (node.withChildren parts)) (Rel node)) :
    Gives _ (e.rebuildM f) (Rel e) :=
  hjudges.coupling.rebuildM (g := f) hnodes

/-- A body becomes good statements if each of its statements does. -/
theorem rebuildBody {g : Stmt → m (List Stmt)} {Good : Stmt → Prop} (hjudges : Judgement Gives)
    {body : List Stmt}
    (hexprs : ∀ inner ∈ Stmt.nestedBody body, ∀ e ∈ inner.exprs, Gives _ (e.rebuildM f) (Rel e))
    (hstmts : ∀ inner ∈ Stmt.nestedBody body, ∀ rebuilt, inner.Reshaped Rel rebuilt →
      (∀ body ∈ rebuilt.bodies, ∀ s ∈ Stmt.nestedBody body, Good s) →
        Gives _ (g rebuilt) (fun result => ∀ s ∈ Stmt.nestedBody result, Good s)) :
    Gives _ (Stmt.rebuildBodyM f g body) (Stmt.Becomes Good body) :=
  hjudges.coupling.rebuildBody (g := f) (k := g) hexprs hstmts

end Judgement

end KernelFront
