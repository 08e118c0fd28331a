import KernelFront.Signature

/-! # Namespaces of the host

Names that a function does not bind itself belong to the host. Inference does not look at the host;
it asks a namespace what kind of thing such a name is and what an attribute of a module refers to.
-/

namespace KernelFront.Host

/-- What a name of the host stands for. -/
inductive NameKind where
  /-- A builtin of the host language. -/
  | builtin
  /-- An imported module, by its real name. -/
  | module (name : String) (isNumpy : Bool)
  /-- A function that is already compiled. -/
  | native (entry : EntryPoint)
  /-- Any other value. -/
  | global
  deriving DecidableEq, Repr

/-- What an attribute of a module stands for. -/
inductive ModuleAttr where
  /-- The marker of a new axis in a subscript. -/
  | newAxis
  /-- An element type. -/
  | dtype (ty : Ty)
  /-- A callable. -/
  | function
  /-- Any other value. -/
  | other
  deriving DecidableEq, Repr

/-- The answers of a host about its names. -/
structure Namespace where
  lookup : String → NameKind
  /-- What `attr` means in `module`, if the module has it. -/
  attribute? (module attr : String) : Option ModuleAttr

end KernelFront.Host
