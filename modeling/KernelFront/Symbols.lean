import KernelFront.Ty.Basic

/-! # Symbol tables

A symbol table holds the bindings of one function in the order in which they were made; the position
of a binding is its identity, so a type that becomes known later is seen by every node that refers
to the binding. A name means the latest binding of that name. One binding without a name holds the
result type of the function; it is made on first use.
-/

namespace KernelFront

/-- A named or anonymous binding. -/
structure Variable where
  /-- The type, absent for a local that has not been assigned yet. -/
  ty : Option Ty := none
  isLocal : Bool := false
  isConstant : Bool := false
  constantValue : Option Constant := none
  name : Option String := none
  deriving DecidableEq, Repr, Inhabited

namespace Variable

/-- A binding with a known type and no name. -/
def typed (ty : Ty) : Variable := { ty := some ty }

/-- A local binding; a parameter has a type from the start. -/
def localNamed (name : String) (ty : Option Ty) : Variable :=
  { ty, isLocal := true, name := some name }

/-- A global or builtin name. -/
def globalNamed (name : String) (ty : Ty) : Variable := { ty := some ty, name := some name }

/-- A compile-time constant of the given type. -/
def constant (value : Constant) (ty : Ty) : Variable :=
  { ty := some ty, isConstant := true, constantValue := some value }

end Variable

/-- The position of a binding in its table. -/
structure SymbolId where
  index : Nat
  deriving DecidableEq, Repr, Inhabited

/-- The bindings of a function. -/
structure SymbolTable where
  vars : List Variable := []
  /-- The binding of the result type, if it was made. -/
  returnSlot : Option SymbolId := none
  deriving DecidableEq, Repr, Inhabited

namespace SymbolTable

/-- The number of bindings. -/
def size (table : SymbolTable) : Nat := table.vars.length

/-- The binding with the given identity. -/
def get? (table : SymbolTable) (id : SymbolId) : Option Variable := table.vars[id.index]?

/-- The type of a binding, if it is determined. -/
def typeOf? (table : SymbolTable) (id : SymbolId) : Option Ty :=
  (table.get? id).bind Variable.ty

/-- Add a binding at the end. -/
def insert (table : SymbolTable) (var : Variable) : SymbolId × SymbolTable :=
  (⟨table.size⟩, { table with vars := table.vars ++ [var] })

/-- The latest position, counted from `index`, that binds a name. -/
def lookupFrom (name : String) (index : Nat) : List Variable → Option Nat
  | [] => none
  | var :: vars =>
      match lookupFrom name (index + 1) vars with
      | some found => some found
      | none => if var.name = some name then some index else none

/-- The latest binding of a name. -/
def lookup (table : SymbolTable) (name : String) : Option SymbolId :=
  (lookupFrom name 0 table.vars).map .mk

/-- Replace the type of a binding. -/
def setType (table : SymbolTable) (id : SymbolId) (ty : Option Ty) : SymbolTable :=
  { table with vars := table.vars.modify id.index fun var => { var with ty } }

/-- The binding of the result type, made on first use. -/
def ensureReturnSlot (table : SymbolTable) : SymbolId × SymbolTable :=
  match table.returnSlot with
  | some id => (id, table)
  | none =>
      let (id, table) := table.insert {}
      (id, { table with returnSlot := some id })

/-- Every name with its latest binding, in the order of those bindings. -/
def names (table : SymbolTable) : List (String × SymbolId) :=
  table.vars.zipIdx.filterMap fun (var, index) => do
    let name ← var.name
    if table.lookup name = some ⟨index⟩ then some (name, ⟨index⟩) else none

end SymbolTable

end KernelFront
