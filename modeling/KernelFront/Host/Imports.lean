import KernelFront.Host.Namespace
import KernelFront.Table

/-! # Imports

The namespace of a host as it is usually described: which modules are imported under which alias,
which names are plain globals, and which are compiled functions. A name is looked up among the
compiled functions first, then among the aliases, then among the globals, so that a configured
global hides a builtin of the same name.
-/

namespace KernelFront.Host

/-- The builtins of the host language. -/
def builtins : List String :=
  ["abs", "bool", "complex", "float", "int", "len", "max", "min", "print", "range", "round",
    "sum", "xrange"]

/-- The callables of the array module. -/
def arrayFunctions : List String :=
  ["abs", "arange", "array", "cos", "dot", "empty", "empty_like", "exp", "log", "ones",
    "ones_like", "sin", "sqrt", "sum", "zeros", "zeros_like"]

/-- The constants of the array module. -/
def arrayConstants : List String := ["pi", "e", "inf", "nan"]

/-- The real name of the array module. -/
def arrayModule : String := "numpy"

/-- The element type that an attribute of the array module names. -/
def dtypeNamed? : String → Option Ty
  | "bool_" => some .bool
  | "int8" => some .int8
  | "int16" => some .int16
  | "int32" => some .int32
  | "int64" | "int_" | "intp" => some .int64
  | "uint8" => some .uint8
  | "uint16" => some .uint16
  | "uint32" => some .uint32
  | "uint64" => some .uint64
  | "float32" | "single" => some .float32
  | "float64" | "double" | "float_" => some .float64
  | "complex64" => some .complex64
  | "complex128" | "complex_" => some .complex128
  | _ => none

/-- What an attribute of a module stands for. Modules other than the array module are opaque: each
of their attributes is looked up at run time. -/
def moduleAttribute? (module attr : String) : Option ModuleAttr :=
  if module ≠ arrayModule then some .other
  else if attr = "newaxis" then some .newAxis
  else match dtypeNamed? attr with
    | some ty => some (.dtype ty)
    | none =>
        if attr ∈ arrayFunctions then some .function
        else if attr ∈ arrayConstants then some .other
        else none

/-- The names that a host makes available. -/
structure Imports where
  /-- Aliases and the real names of the modules. -/
  modules : Table String String := {}
  globals : List String := []
  /-- Names of compiled functions. -/
  natives : Table String EntryPoint := {}
  deriving Inhabited

namespace Imports

/-- No modules, globals or compiled functions. -/
def empty : Imports := {}

/-- Bind an alias to a module. -/
def withModule (imports : Imports) (aliasName name : String) : Imports :=
  { imports with modules := imports.modules.insert aliasName name }

/-- Make a name a plain global. -/
def withGlobal (imports : Imports) (name : String) : Imports :=
  { imports with globals := name :: imports.globals }

/-- Bind a name to a compiled function. -/
def withNative (imports : Imports) (name : String) (entry : EntryPoint) : Imports :=
  { imports with natives := imports.natives.insert name entry }

/-- The imports that every host provides. -/
def standard : Imports :=
  ((empty.withModule "np" "numpy").withModule "numpy" "numpy").withModule "math" "math"

/-- What a name stands for. -/
def lookup (imports : Imports) (name : String) : NameKind :=
  match imports.natives.get? name with
  | some entry => .native entry
  | none =>
      match imports.modules.get? name with
      | some module => .module module (module == arrayModule)
      | none =>
          if name ∈ imports.globals then .global
          else if name ∈ builtins then .builtin
          else .global

/-- The namespace that the imports describe. -/
def toNamespace (imports : Imports) : Namespace :=
  { lookup := imports.lookup, attribute? := moduleAttribute? }

end Imports

end KernelFront.Host
