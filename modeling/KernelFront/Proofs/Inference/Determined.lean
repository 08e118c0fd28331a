import KernelFront.Proofs.Inference.Settled
import KernelFront.Proofs.Refusals
import KernelFront.Proofs.Source

/-! # Determined types

When types are fixed, the binding of every expression must have a type, and so must the bindings
that deferred conversions wait for. While inference goes on, bindings only gain types, so what is
determined stays so. Names that are written may be exempt: a name in a display among other places
is bound, but nothing is stored to it.
-/

namespace KernelFront

namespace Expr

/-- The binding that a deferred conversion waits for. -/
def awaited? : Expr → Option SymbolId
  | .deferredCoercion _ _ slot => some slot
  | _ => none

theorem awaited?_withChildren (e : Expr) (parts : List Expr) :
    (e.withChildren parts).awaited? = e.awaited? := by
  unfold withChildren
  split <;> rfl

end Expr

namespace Inference

open Scope (resultSlot)

/-- The binding has a type. -/
def HasType (table : SymbolTable) : Option Binding → Prop
  | some (.symbol id) => (table.typeOf? id).isSome
  | some (.value var) => var.ty.isSome
  | none => False

/-- The binding of an expression has a type, and so has the binding that it waits for. -/
structure Determined (table : SymbolTable) (e : Expr) : Prop where
  bound : HasType table e.binding
  awaited : ∀ id ∈ e.awaited?, (table.typeOf? id).isSome

/-- These expressions are determined, apart from written names at the places that are exempt. -/
def Known (exempt : Span → Prop) (table : SymbolTable) (nodes : List Expr) : Prop :=
  ∀ node ∈ nodes, Determined table node ∨ node.isStoredName ∧ exempt node.span

/-- These expressions are determined, without exception. -/
abbrev AllDetermined (table : SymbolTable) (nodes : List Expr) : Prop :=
  Known (fun _ => False) table nodes

section Known

variable {exempt : Span → Prop} {table : SymbolTable}

theorem Determined.isSome_typeIn? {e : Expr} (hdetermined : Determined table e) :
    (e.typeIn? table).isSome := by
  have hbound := hdetermined.bound
  rcases hbinding : e.binding with _ | id | var <;> rw [hbinding] at hbound
  · exact hbound.elim
  · obtain ⟨ty, hty⟩ := Option.isSome_iff_exists.mp hbound
    obtain ⟨var, hvar, hvarTy⟩ := Option.bind_eq_some_iff.mp hty
    rw [typeIn?_symbol table hbinding, hvar]
    exact Option.isSome_of_eq_some hvarTy
  · unfold Expr.typeIn? Expr.boundVar?
    rw [hbinding]
    exact hbound

@[simp] theorem known_nil : Known exempt table [] := List.forall_mem_nil _

@[simp] theorem known_cons {node : Expr} {nodes : List Expr} :
    Known exempt table (node :: nodes) ↔
      (Determined table node ∨ node.isStoredName ∧ exempt node.span) ∧
        Known exempt table nodes :=
  List.forall_mem_cons

@[simp] theorem known_append {first second : List Expr} :
    Known exempt table (first ++ second) ↔
      Known exempt table first ∧ Known exempt table second :=
  List.forall_mem_append

theorem known_nodesAll {es : List Expr} :
    Known exempt table (Expr.nodesAll es) ↔ ∀ e ∈ es, Known exempt table e.nodes := by
  induction es with
  | nil => simp [Expr.nodesAll]
  | cons e es ih => simp only [Expr.nodesAll, known_append, ih, List.forall_mem_cons]

/-- An expression that is determined stands above parts that are known. -/
theorem known_node {e : Expr} (hroot : Determined table e)
    (hparts : Known exempt table (Expr.nodesAll e.children)) : Known exempt table e.nodes := by
  rw [Expr.nodes_eq]
  exact known_cons.mpr ⟨.inl hroot, hparts⟩

/-- An expression with a private binding of a type. -/
theorem determined_typed {e : Expr} {span : Span} {ty : Ty} (hnote : e.note = .typed span ty)
    (hawaited : e.awaited? = none) : Determined table e := by
  refine ⟨?_, ?_⟩
  · unfold Expr.binding
    rw [hnote]
    exact rfl
  · rw [hawaited]
    rintro _ ⟨⟩

theorem AllDetermined.known {nodes : List Expr} (hknown : AllDetermined table nodes) :
    Known exempt table nodes :=
  fun node hnode => (hknown node hnode).imp_right fun hnever => hnever.2.elim

theorem AllDetermined.determined {nodes : List Expr} (hknown : AllDetermined table nodes)
    {node : Expr} (hnode : node ∈ nodes) : Determined table node :=
  (hknown node hnode).resolve_right fun hnever => hnever.2

theorem AllDetermined.root {e : Expr} (hknown : AllDetermined table e.nodes) :
    Determined table e :=
  hknown.determined e.mem_nodes_self

theorem known_convert {e : Expr} (hknown : Known exempt table e.nodes) (target : Ty) :
    Known exempt table (e.convert table target).nodes := by
  unfold Expr.convert
  split
  · exact hknown
  · refine known_node ⟨rfl, by rintro _ ⟨⟩⟩ ?_
    simpa only [Expr.children, Expr.nodesAll, List.append_nil] using hknown

theorem known_convertAll {es : List Expr} (hknown : Known exempt table (Expr.nodesAll es))
    (target : Ty) : Known exempt table (Expr.nodesAll (es.map (Expr.convert table target))) := by
  rw [known_nodesAll] at hknown ⊢
  exact List.forall_mem_map.mpr fun e he => known_convert (hknown e he) target

/-- An expression that rules can build on: it is determined itself. -/
structure Usable (exempt : Span → Prop) (table : SymbolTable) (e : Expr) : Prop where
  root : Determined table e
  nodes : Known exempt table e.nodes

theorem AllDetermined.usable {e : Expr} (hknown : AllDetermined table e.nodes) :
    Usable exempt table e :=
  ⟨hknown.root, hknown.known⟩

end Known

/-! ## Scopes -/

/-- What becomes of a scope while inference goes on: bindings that have a type still have one, and
names keep their meaning. -/
structure Scope.Keeps (before after : Scope) : Prop where
  typed : ∀ {id}, (before.symbols.typeOf? id).isSome → (after.symbols.typeOf? id).isSome
  lookup : ∀ {name id}, before.symbols.lookup name = some id → after.symbols.lookup name = some id

theorem Scope.Keeps.refl (scope : Scope) : scope.Keeps scope := ⟨id, id⟩

theorem Scope.Keeps.trans {before middle after : Scope} (hfirst : before.Keeps middle)
    (hsecond : middle.Keeps after) : before.Keeps after :=
  ⟨fun htyped => hsecond.typed (hfirst.typed htyped),
    fun hfound => hsecond.lookup (hfirst.lookup hfound)⟩

theorem Determined.mono {before after : Scope} (hkeeps : before.Keeps after) {e : Expr}
    (hdetermined : Determined before.symbols e) : Determined after.symbols e := by
  obtain ⟨hbound, hawaited⟩ := hdetermined
  refine ⟨?_, fun id hid => hkeeps.typed (hawaited id hid)⟩
  rcases hbinding : e.binding with _ | id | var <;> rw [hbinding] at hbound
  · exact hbound
  · exact hkeeps.typed hbound
  · exact hbound

theorem Known.mono {exempt : Span → Prop} {before after : Scope} (hkeeps : before.Keeps after)
    {nodes : List Expr} (hknown : Known exempt before.symbols nodes) :
    Known exempt after.symbols nodes :=
  fun node hnode => (hknown node hnode).imp_left (Determined.mono hkeeps)

theorem Usable.mono {exempt : Span → Prop} {before after : Scope} (hkeeps : before.Keeps after)
    {e : Expr} (husable : Usable exempt before.symbols e) : Usable exempt after.symbols e :=
  ⟨husable.root.mono hkeeps, husable.nodes.mono hkeeps⟩

/-- A scope in which names can be visited: the binding of the result has no name, other bindings
without a type are locals that the function binds, and free names that have the type of a function
have entry points. -/
structure Scope.Sane (own : List String) (scope : Scope) : Prop where
  anonymous : scope.Anonymous
  untyped : ∀ {id var}, id ≠ resultSlot → scope.symbols.get? id = some var → var.ty = none →
    var.isLocal ∧ ∃ name ∈ own, var.name = some name
  natives : ∀ {name id params ret}, name ∉ own → scope.symbols.lookup name = some id →
    scope.symbols.typeOf? id = some (.function params ret) → (scope.natives.lookup name).isSome

end Inference

end KernelFront
