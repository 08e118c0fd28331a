import KernelFront.Proofs.Inference.Growth
import KernelFront.Proofs.WellTyped

/-! # Settled types

While inference goes on, a type can be relied on if it is that of a private binding or of a named
one; the binding of the result may still change. Expressions are settled if their parts have the
types that they ask for and these types can be relied on.
-/

namespace KernelFront

namespace Inference

open Scope (resultSlot)

/-- The type of an expression, unless it is bound to the result. -/
def settledType? (table : SymbolTable) (e : Expr) : Option Ty :=
  match e.binding with
  | some (.symbol id) => if id = resultSlot then none else table.typeOf? id
  | some (.value var) => var.ty
  | none => none

/-- The type of an expression is that of its binding, which is not that of the result. -/
def Placed (e : Expr) : Prop :=
  match e.binding with
  | some (.symbol id) => id ≠ resultSlot ∧ e.ty = none
  | some (.value _) => True
  | none => False

theorem settledType?_symbol (table : SymbolTable) {e : Expr} {id : SymbolId}
    (hbinding : e.binding = some (.symbol id)) :
    settledType? table e = if id = resultSlot then none else table.typeOf? id := by
  unfold settledType?
  rw [hbinding]

theorem typeIn?_symbol (table : SymbolTable) {e : Expr} {id : SymbolId}
    (hbinding : e.binding = some (.symbol id)) :
    e.typeIn? table = (table.get? id).elim e.ty Variable.ty := by
  have hvar : e.boundVar? table = table.get? id := by
    unfold Expr.boundVar?
    rw [hbinding]
  unfold Expr.typeIn?
  rw [hvar]
  cases table.get? id <;> rfl

theorem settledType?_eq {table : SymbolTable} {e : Expr} (hplaced : Placed e) :
    settledType? table e = e.typeIn? table := by
  unfold Placed at hplaced
  rcases hbinding : e.binding with _ | id | var <;> rw [hbinding] at hplaced
  · exact hplaced.elim
  · rw [settledType?_symbol table hbinding, typeIn?_symbol table hbinding, if_neg hplaced.1,
      hplaced.2, SymbolTable.typeOf?]
    cases table.get? id <;> rfl
  · unfold settledType? Expr.typeIn? Expr.boundVar?
    rw [hbinding]

theorem typeIn?_of_settled {table : SymbolTable} {e : Expr} {ty : Ty}
    (hty : settledType? table e = some ty) : e.typeIn? table = some ty := by
  rcases hbinding : e.binding with _ | id | var
  · unfold settledType? at hty
    rw [hbinding] at hty
    cases hty
  · rw [settledType?_symbol table hbinding] at hty
    split at hty
    · cases hty
    · obtain ⟨var, hvar, hvarTy⟩ := Option.bind_eq_some_iff.mp hty
      rw [typeIn?_symbol table hbinding, hvar]
      exact hvarTy
  · unfold settledType? at hty
    rw [hbinding] at hty
    unfold Expr.typeIn? Expr.boundVar?
    rw [hbinding]
    exact hty

theorem Scope.Grows.settledType? {before after : Scope} (hgrows : before.Grows after) {e : Expr}
    {ty : Ty} (hty : settledType? before.symbols e = some ty) :
    Inference.settledType? after.symbols e = some ty := by
  unfold Inference.settledType? at hty ⊢
  split at hty
  · split at hty
    · cases hty
    · rename_i hid
      rw [if_neg hid]
      exact hgrows.typed hid hty
  · exact hty
  · cases hty

/-- All these expressions are placed, and their parts have the types that they ask for. -/
def Settled (index : Ty) (table : SymbolTable) (nodes : List Expr) : Prop :=
  ∀ node ∈ nodes, Placed node ∧ node.Agrees index (settledType? table)

section Settled

variable {index : Ty} {table : SymbolTable}

@[simp] theorem settled_nil : Settled index table [] := List.forall_mem_nil _

@[simp] theorem settled_cons {node : Expr} {nodes : List Expr} :
    Settled index table (node :: nodes) ↔
      (Placed node ∧ node.Agrees index (settledType? table)) ∧ Settled index table nodes :=
  List.forall_mem_cons

@[simp] theorem settled_append {first second : List Expr} :
    Settled index table (first ++ second) ↔
      Settled index table first ∧ Settled index table second :=
  List.forall_mem_append

theorem settled_nodesAll {es : List Expr} :
    Settled index table (Expr.nodesAll es) ↔ ∀ e ∈ es, Settled index table e.nodes := by
  induction es with
  | nil => simp [Expr.nodesAll]
  | cons e es ih => simp only [Expr.nodesAll, settled_append, ih, List.forall_mem_cons]

theorem Settled.placed {e : Expr} (hsettled : Settled index table e.nodes) : Placed e :=
  (hsettled e e.mem_nodes_self).1

theorem Settled.mono {before after : Scope} {nodes : List Expr} (hgrows : before.Grows after)
    (hsettled : Settled index before.symbols nodes) : Settled index after.symbols nodes :=
  fun node hnode => ⟨(hsettled node hnode).1, (hsettled node hnode).2.mono hgrows.settledType?⟩

/-- A converted expression has the type that it is converted to. -/
theorem settledType?_convert {e : Expr} (hsettled : Settled index table e.nodes) (target : Ty) :
    settledType? table (e.convert table target) = some target := by
  unfold Expr.convert
  split
  · rename_i hty
    rw [settledType?_eq hsettled.placed, hty]
  · rfl

theorem settled_convert {e : Expr} (hsettled : Settled index table e.nodes) (target : Ty) :
    Settled index table (e.convert table target).nodes := by
  unfold Expr.convert
  split
  · exact hsettled
  · simp only [Expr.nodes, settled_cons]
    exact ⟨⟨trivial, trivial⟩, hsettled⟩

theorem settled_convertAll {es : List Expr} (hsettled : Settled index table (Expr.nodesAll es))
    (target : Ty) : Settled index table (Expr.nodesAll (es.map (Expr.convert table target))) := by
  rw [settled_nodesAll] at hsettled ⊢
  exact List.forall_mem_map.mpr fun e he => settled_convert (hsettled e he) target

theorem settledType?_convertAll {es : List Expr} (hsettled : Settled index table (Expr.nodesAll es))
    (target : Ty) :
    ∀ e ∈ es.map (Expr.convert table target), settledType? table e = some target :=
  List.forall_mem_map.mpr fun e he =>
    settledType?_convert (settled_nodesAll.mp hsettled e he) target

end Settled

end Inference

end KernelFront
