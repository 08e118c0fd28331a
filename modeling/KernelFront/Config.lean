import KernelFront.Host.Imports
import KernelFront.Options
import KernelFront.Toml.Parser
import KernelFront.Ty.Parser

/-! # Configuration

A configuration names the types that the source leaves open, in a section `types`, and the names
that the host provides, in a section `namespace`. Everything has a default, and sections and keys of
other names are ignored. A section may also be written as an array of its values in order, and a
date or a time counts as a table that holds nothing but its text.
-/

namespace KernelFront

/-- A configuration as it is written. -/
structure Config where
  indexType : Option String := none
  intBuiltin : Option String := none
  floatBuiltin : Option String := none
  /-- Names that are plain globals even if the host has a builtin of the same name. -/
  globals : List String := []
  /-- Further module aliases and the modules they stand for. -/
  modules : List (String × String) := []
  deriving Repr, Inhabited

namespace Config

/-- The name under which a date or a time holds its text. -/
def momentKey : String := "$__toml_private_datetime"

/-- The values of a section by their names. -/
def section? (fields : List String) : Option Toml → Option Toml.Members
  | none => some []
  | some (.table _ members) => some members
  | some (.moment moment) => some [(momentKey, .str moment.text)]
  | some (.arr items) => some (fields.zip items)
  | some (.tables items) => some (fields.zip (items.map (.table .header)))
  | some _ => none

/-- A text. -/
def text? : Toml → Option String
  | .str text => some text
  | _ => none

/-- A list of texts. -/
def texts? : Toml → Option (List String)
  | .arr items => items.mapM text?
  | .tables items => if items.isEmpty then some [] else none
  | _ => none

/-- A table of texts. -/
def textTable? : Toml → Option (List (String × String))
  | .table _ members => members.mapM fun (key, value) => (text? value).map (key, ·)
  | .moment moment => some [(momentKey, moment.text)]
  | _ => none

/-- A value that may be absent. -/
def field? {α : Type} (members : Toml.Members) (key : String) (absent : α) (f : Toml → Option α) :
    Option α :=
  match members.lookup key with
  | none => some absent
  | some value => f value

/-- The configuration that a document describes. -/
def ofToml? (document : Toml.Members) : Option Config := do
  let types ← section? ["index_type", "int_builtin", "float_builtin"] (document.lookup "types")
  let indexType ← field? types "index_type" none fun value => (text? value).map some
  let intBuiltin ← field? types "int_builtin" none fun value => (text? value).map some
  let floatBuiltin ← field? types "float_builtin" none fun value => (text? value).map some
  let names ← section? ["globals", "modules"] (document.lookup "namespace")
  let globals ← field? names "globals" [] texts?
  let modules ← field? names "modules" [] textTable?
  pure { indexType, intBuiltin, floatBuiltin, globals, modules }

/-- Read a configuration. -/
def parse? (text : String) : Option Config := (Toml.parse? text).bind ofToml?

/-- The type that a key of the section `types` names. -/
def typeOr (key : String) (default : Ty) : Option String → Except String Ty
  | none => .ok default
  | some text =>
      match Ty.parse text with
      | .ok ty => .ok ty
      | .error e => .error ("Invalid [types] " ++ key ++ ": " ++ e.message)

/-- The options of a configuration; the first type that does not parse is reported. -/
def options (config : Config) : Except String Options := do
  let default : Options := {}
  let indexType ← typeOr "index_type" default.indexType config.indexType
  let intBuiltin ← typeOr "int_builtin" default.intBuiltin config.intBuiltin
  let floatBuiltin ← typeOr "float_builtin" default.floatBuiltin config.floatBuiltin
  pure { indexType, intBuiltin, floatBuiltin }

/-- The standard imports with the globals and aliases of a configuration. -/
def imports (config : Config) : Host.Imports :=
  config.modules.foldl (fun imports (aliasName, name) => imports.withModule aliasName name)
    (config.globals.foldl Host.Imports.withGlobal .standard)

end Config

end KernelFront
