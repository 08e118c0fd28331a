import KernelFront.Proofs.Traversal
import KernelFront.Tree.Locals

/-! # Functions of the source

What a parser delivers: none of the forms that passes make, and the mark of writing on the places
that are stored to and on nothing else. An assignment stores in its places one by one. A display
among these places is visited but not taken apart, so that the names in it are stored to by nothing.
-/

namespace KernelFront

namespace Expr

/-- Whether an expression has a form that only passes make. -/
def isLowered : Expr → Bool
  | .coercion _ _ _ | .deferredCoercion _ _ _ | .range _ _ _ _ | .nativeCall _ _ _ _
  | .objectCall _ _ _ _ | .arrayAttribute _ _ _ _ | .dataPointer _ _ | .objectTemp _ _ _
  | .temp _ _ _ => true
  | _ => false

/-- Whether an expression is a name that is written. -/
def isStoredName : Expr → Bool
  | .name _ _ access => access = .store
  | _ => false

/-- An expression of the source that is only read. -/
def IsRead (e : Expr) : Prop := ∀ node ∈ e.nodes, node.access = .load ∧ node.isLowered = false

instance : DecidablePred IsRead := fun e => inferInstanceAs (Decidable (∀ node ∈ e.nodes, _ ∧ _))

theorem IsRead.part {e part : Expr} (hread : e.IsRead) (hpart : part ∈ e.children) :
    part.IsRead :=
  fun node hnode => hread node (mem_nodes_of_part hpart hnode)

/-- A place of the source: a name, an attribute or an element of a value that is read, or a display
of places that are stored to. The place itself is read or written as the mark says. -/
inductive IsPlace : Access → Expr → Prop where
  | name {note : Note} {id : String} {access : Access} : IsPlace access (.name note id access)
  | attribute {note : Note} {value : Expr} {attr : String} {access : Access}
      (hvalue : value.IsRead) : IsPlace access (.attribute note value attr access)
  | subscript {note : Note} {value selector : Expr} {access : Access} (hvalue : value.IsRead)
      (hselector : selector.IsRead) : IsPlace access (.subscript note value selector access)
  | tuple {note : Note} {elts : List Expr} {access : Access}
      (helts : ∀ e ∈ elts, IsPlace .store e) : IsPlace access (.tuple note elts access)
  | list {note : Note} {elts : List Expr} {access : Access}
      (helts : ∀ e ∈ elts, IsPlace .store e) : IsPlace access (.list note elts access)

theorem IsPlace.withAccess {access : Access} {e : Expr} (hplace : e.IsPlace access)
    (other : Access) : (e.withAccess other).IsPlace other := by
  cases hplace with
  | name => exact .name
  | «attribute» hvalue => exact .attribute hvalue
  | subscript hvalue hselector => exact .subscript hvalue hselector
  | tuple helts => exact .tuple helts
  | list helts => exact .list helts

mutual

/-- `IsPlace` as a test. -/
def isPlace (access : Access) : Expr → Bool
  | .name _ _ a => a = access
  | .attribute _ value _ a => a = access && decide value.IsRead
  | .subscript _ value selector a => a = access && decide value.IsRead && decide selector.IsRead
  | .tuple _ elts a | .list _ elts a => a = access && arePlaces elts
  | _ => false

/-- Whether all of these expressions are places that are stored to. -/
def arePlaces : List Expr → Bool
  | [] => true
  | e :: es => isPlace .store e && arePlaces es

end

mutual

theorem isPlace_iff {access : Access} (e : Expr) : e.isPlace access = true ↔ e.IsPlace access := by
  constructor
  · intro hplace
    cases e with
    | name note id a =>
        obtain rfl := of_decide_eq_true hplace
        exact .name
    | «attribute» note value attr a =>
        simp only [isPlace, Bool.and_eq_true, decide_eq_true_eq] at hplace
        obtain ⟨rfl, hvalue⟩ := hplace
        exact .attribute hvalue
    | subscript note value selector a =>
        simp only [isPlace, Bool.and_eq_true, decide_eq_true_eq] at hplace
        obtain ⟨⟨rfl, hvalue⟩, hselector⟩ := hplace
        exact .subscript hvalue hselector
    | tuple note elts a =>
        simp only [isPlace, Bool.and_eq_true, decide_eq_true_eq] at hplace
        obtain ⟨rfl, helts⟩ := hplace
        exact .tuple ((arePlaces_iff elts).mp helts)
    | list note elts a =>
        simp only [isPlace, Bool.and_eq_true, decide_eq_true_eq] at hplace
        obtain ⟨rfl, helts⟩ := hplace
        exact .list ((arePlaces_iff elts).mp helts)
    | _ => cases hplace
  · intro hplace
    cases e with
    | name =>
        cases hplace
        simp [isPlace]
    | «attribute» =>
        cases hplace with
        | «attribute» hvalue => simp [isPlace, hvalue]
    | subscript =>
        cases hplace with
        | subscript hvalue hselector => simp [isPlace, hvalue, hselector]
    | tuple note elts a =>
        cases hplace with
        | tuple helts => simp [isPlace, (arePlaces_iff elts).mpr helts]
    | list note elts a =>
        cases hplace with
        | list helts => simp [isPlace, (arePlaces_iff elts).mpr helts]
    | _ => cases hplace
termination_by structural e

theorem arePlaces_iff (es : List Expr) :
    arePlaces es = true ↔ ∀ e ∈ es, e.IsPlace .store := by
  cases es with
  | nil => simp [arePlaces]
  | cons e es =>
      rw [arePlaces, Bool.and_eq_true, isPlace_iff e, arePlaces_iff es, List.forall_mem_cons]
termination_by structural es

end

instance (access : Access) (e : Expr) : Decidable (e.IsPlace access) :=
  decidable_of_iff _ (isPlace_iff e)

/-- The mark of a place is no part of what stands below it. -/
theorem children_withAccess (e : Expr) (access : Access) :
    (e.withAccess access).children = e.children := by
  cases e <;> rfl

theorem isStoredName_withAccess_load (e : Expr) : (e.withAccess .load).isStoredName = false := by
  cases e <;> rfl

/-- A name that is not among the names that are bound. -/
def IsFreeName (bound : List String) (e : Expr) : Prop :=
  ∃ name, e.asName = some name ∧ name ∉ bound

end Expr

namespace Stmt

/-- A statement of the source, its bodies apart. -/
def IsSource : Stmt → Prop
  | .assign _ targets value => (∀ target ∈ targets, target.IsPlace .store) ∧ value.IsRead
  | .augAssign _ target _ value => target.IsPlace .store ∧ value.IsRead
  | .forIn _ target iter _ _ index => target.IsPlace .store ∧ iter.IsRead ∧ index = none
  | stmt => ∀ e ∈ stmt.exprs, e.IsRead

instance : DecidablePred IsSource
  | .assign _ targets value =>
      inferInstanceAs (Decidable ((∀ target ∈ targets, target.IsPlace .store) ∧ value.IsRead))
  | .augAssign _ target _ value =>
      inferInstanceAs (Decidable (target.IsPlace .store ∧ value.IsRead))
  | .forIn _ target iter _ _ index =>
      decidable_of_iff (target.IsPlace .store ∧ iter.IsRead ∧ index.isNone)
        (by simp [IsSource])
  | .whileLoop _ test _ _ | .branch _ test _ _ =>
      inferInstanceAs (Decidable (∀ e ∈ [test], e.IsRead))
  | .ret _ value => inferInstanceAs (Decidable (∀ e ∈ value.toList, e.IsRead))
  | .expr _ value => inferInstanceAs (Decidable (∀ e ∈ [value], e.IsRead))
  | .print _ values dest _ => inferInstanceAs (Decidable (∀ e ∈ dest.toList ++ values, e.IsRead))
  | .global _ _ | .pass _ | .break _ | .continue _ => isTrue nofun

theorem IsSource.uncounted {stmt : Stmt} (hsource : stmt.IsSource) : stmt.Uncounted := by
  cases stmt with
  | forIn => exact hsource.2.2
  | _ => trivial

/-- The places that targets stand for: the elements of a single display, and the targets themselves
otherwise. -/
def unpackedTargets : List Expr → List Expr
  | [.tuple _ elts _] | [.list _ elts _] => elts
  | targets => targets

/-- The places that a statement stores to one by one. -/
def places : Stmt → List Expr
  | .assign _ targets _ => unpackedTargets targets
  | .augAssign _ target _ _ | .forIn _ target _ _ _ _ => [target]
  | _ => []

theorem IsSource.places {stmt : Stmt} (hsource : stmt.IsSource) :
    ∀ place ∈ stmt.places, place.IsPlace .store := by
  cases stmt with
  | assign span targets value =>
      obtain ⟨htargets, _⟩ := hsource
      simp only [Stmt.places, unpackedTargets]
      split
      · cases htargets _ (List.mem_singleton_self _) with
        | tuple helts => exact helts
      · cases htargets _ (List.mem_singleton_self _) with
        | list helts => exact helts
      · exact htargets
  | augAssign => exact List.forall_mem_singleton.mpr hsource.1
  | forIn => exact List.forall_mem_singleton.mpr hsource.1
  | _ => exact List.forall_mem_nil _

theorem mem_nodes_of_place {stmt : Stmt} {place node : Expr} (hplace : place ∈ stmt.places)
    (hnode : node ∈ place.nodes) : node ∈ stmt.nodes := by
  have hmem {es : List Expr} (hes : place ∈ es) : node ∈ Expr.nodesAll es :=
    Expr.mem_nodesAll.mpr ⟨place, hes, hnode⟩
  cases stmt with
  | assign span targets value =>
      simp only [nodes, exprs, Expr.nodesAll_append]
      refine List.mem_append_left _ ?_
      simp only [Stmt.places, unpackedTargets] at hplace
      split at hplace
      · exact List.mem_append_left _ (List.mem_cons_of_mem _ (hmem hplace))
      · exact List.mem_append_left _ (List.mem_cons_of_mem _ (hmem hplace))
      · exact hmem hplace
  | augAssign => exact hmem (List.mem_singleton.mp hplace ▸ List.mem_cons_self)
  | forIn => exact hmem (List.mem_singleton.mp hplace ▸ List.mem_cons_self)
  | _ => cases hplace

/-- The names that are written in displays among the places of a statement. -/
def strays (stmt : Stmt) : List Expr :=
  (Expr.nodesAll (stmt.places.flatMap Expr.children)).filter Expr.isStoredName

end Stmt

namespace FunctionDef

/-- A function of the source. -/
structure IsSource (func : FunctionDef) : Prop where
  statements : ∀ stmt ∈ func.statements, stmt.IsSource
  errorReturn : func.errorReturn = none

instance : DecidablePred IsSource := fun func =>
  decidable_of_iff ((∀ stmt ∈ func.statements, stmt.IsSource) ∧ func.errorReturn.isNone)
    ⟨fun h => ⟨h.1, by simpa using h.2⟩, fun h => ⟨h.statements, by simp [h.errorReturn]⟩⟩

/-- The names that are written in displays among the places of a function. -/
def strays (func : FunctionDef) : List Expr := func.statements.flatMap Stmt.strays

/-- The names that are bound when the body of a function is entered: parameters, other locals and
the host's `None`. -/
def ownNames (func : FunctionDef) : List String := func.args ++ func.localNames ++ ["None"]

end FunctionDef

end KernelFront
