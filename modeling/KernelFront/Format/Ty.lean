import KernelFront.Json.Record
import KernelFront.Symbols

/-! # Types and bindings in the tree format

The JSON form of constants, types, bindings and symbol tables. An alternative without fields is its
name, one with a single unnamed field is an object from its name to the field, and one with named
fields is an object from its name to the record of the fields. Writing gives every field.

A reader of a recursive form is a reader of one layer, given a reader of the parts; the layers are
tied together by the depth of the value that is read.
-/

namespace KernelFront

namespace Constant

mutual

/-- The JSON form of a constant. -/
def toJson : Constant → Json
  | .nothing => .str "None"
  | .bool b => .tagged "Bool" (.bool b)
  | .int n => .tagged "Int" (.int n)
  | .float x => .tagged "Float" (.ofBinary64 x)
  | .complex re im => .tagged "Complex" (.arr [.ofBinary64 re, .ofBinary64 im])
  | .str s => .tagged "Str" (.str s)
  | .ellipsis => .str "Ellipsis"
  | .null => .str "Null"
  | .stdout => .str "Stdout"
  | .tuple items => .tagged "Tuple" (.arr (toJsonAll items))

/-- The JSON form of each constant. -/
def toJsonAll : List Constant → List Json
  | [] => []
  | c :: cs => toJson c :: toJsonAll cs

end

/-- Read a constant, given a reader of the constants inside. -/
def ofLayer? (part : Json → Option Constant) (v : Json) : Option Constant :=
  match v.variant? with
  | some ("None", none) | some ("None", some .null) => some .nothing
  | some ("Ellipsis", none) | some ("Ellipsis", some .null) => some .ellipsis
  | some ("Null", none) | some ("Null", some .null) => some .null
  | some ("Stdout", none) | some ("Stdout", some .null) => some .stdout
  | some ("Bool", some v) => v.asBool?.map .bool
  | some ("Int", some v) => v.asInt64?.map .int
  | some ("Float", some v) => v.asBinary64?.map .float
  | some ("Complex", some (.arr [re, im])) => do
      let re ← re.asBinary64?
      let im ← im.asBinary64?
      some (.complex re im)
  | some ("Str", some v) => v.asString?.map .str
  | some ("Tuple", some v) => (v.asList? part).map .tuple
  | _ => none

/-- Read a constant from a value of bounded depth. -/
def ofDepth? : Nat → Json → Option Constant
  | 0 => fun _ => none
  | depth + 1 => ofLayer? (ofDepth? depth)

/-- Read a constant. -/
def ofJson? (v : Json) : Option Constant := ofDepth? v.depth v

end Constant

namespace Ty

/-- The JSON form of the constants that a type records. -/
def constants (value : Option (List Constant)) : Json :=
  .option (fun items => .arr (Constant.toJsonAll items)) value

mutual

/-- The JSON form of a type. -/
def toJson : Ty → Json
  | .bool => .str "Bool"
  | .int signed bits => .taggedRecord "Int" [("signed", .bool signed), ("bits", .nat bits)]
  | .float bits => .taggedRecord "Float" [("bits", .nat bits)]
  | .complex bits => .taggedRecord "Complex" [("bits", .nat bits)]
  | .pointer base => .tagged "Pointer" (toJson base)
  | .array elem layout =>
      .taggedRecord "Array" [("dtype", toJson elem), ("ndim", .nat layout.ndim),
        ("c_contig", .bool layout.cContig), ("inner_contig", .bool layout.innerContig)]
  | .carray base size => .taggedRecord "CArray" [("base", toJson base), ("size", .nat size)]
  | .tuple size value => .taggedRecord "Tuple" [("size", .nat size), ("value", constants value)]
  | .list size value => .taggedRecord "List" [("size", .nat size), ("value", constants value)]
  | .range => .str "Range"
  | .slice => .str "Slice"
  | .ellipsis => .str "Ellipsis"
  | .newAxis => .str "NewAxis"
  | .object => .str "Object"
  | .void => .str "Void"
  | .module name isNumpy =>
      .taggedRecord "Module" [("name", .str name), ("is_numpy", .bool isNumpy)]
  | .moduleAttribute owner attr isNumpy =>
      .taggedRecord "ModuleAttribute"
        [("module", .str owner), ("attr", .str attr), ("is_numpy", .bool isNumpy)]
  | .dtype base => .tagged "NumpyDtype" (toJson base)
  | .builtin name => .tagged "Builtin" (.str name)
  | .global name => .tagged "Global" (.str name)
  | .function args ret =>
      .taggedRecord "Function" [("args", .arr (toJsonAll args)), ("ret", toJson ret)]

/-- The JSON form of each type. -/
def toJsonAll : List Ty → List Json
  | [] => []
  | t :: ts => toJson t :: toJsonAll ts

end

variable (style : Json.Style)

/-- The fields of an aggregate of recorded constants. -/
def aggregate? (make : Nat → Option (List Constant) → Ty) (v : Json) : Option Ty := do
  let r ← v.fields? style ["size", "value"]
  let size ← r.required "size" (Json.asUInt? 64)
  let value ← r.optional "value" (Json.asList? Constant.ofJson?)
  some (make size value)

/-- The width of a numeric type. -/
def width? (make : Nat → Ty) (v : Json) : Option Ty := do
  let r ← v.fields? style ["bits"]
  let bits ← r.required "bits" (Json.asUInt? 8)
  some (make bits)

/-- Read the fields of a function type, given a reader of types. -/
def signature? (part : Json → Option Ty) (v : Json) : Option FunctionType := do
  let r ← v.record? ["args", "ret"]
  let args ← r.required "args" (Json.asList? part)
  let ret ← r.required "ret" part
  some ⟨args, ret⟩

/-- Read the fields of an array type, given a reader of types. -/
def arrayType? (part : Json → Option Ty) (v : Json) : Option (Ty × Layout) := do
  let r ← v.record? ["dtype", "ndim", "c_contig", "inner_contig"]
  let elem ← r.required "dtype" part
  let ndim ← r.required "ndim" (Json.asUInt? 64)
  let cContig ← r.required "c_contig" Json.asBool?
  let innerContig ← r.required "inner_contig" Json.asBool?
  some (elem, ⟨ndim, cContig, innerContig⟩)

/-- The types without fields by name. -/
def ofTag? : String → Option Ty
  | "Bool" => some .bool
  | "Range" => some .range
  | "Slice" => some .slice
  | "Ellipsis" => some .ellipsis
  | "NewAxis" => some .newAxis
  | "Object" => some .object
  | "Void" => some .void
  | _ => none

/-- Read a type with fields, given a reader of the types inside. -/
def ofPayload? (part : Json → Option Ty) (tag : String) (v : Json) : Option Ty :=
  match tag with
  | "Int" => do
      let r ← v.fields? style ["signed", "bits"]
      let signed ← r.required "signed" Json.asBool?
      let bits ← r.required "bits" (Json.asUInt? 8)
      some (.int signed bits)
  | "Float" => width? style .float v
  | "Complex" => width? style .complex v
  | "Pointer" => (part v).map .pointer
  | "Array" => (arrayType? part v).map fun (elem, layout) => .array elem layout
  | "CArray" => do
      let r ← v.fields? style ["base", "size"]
      let base ← r.required "base" part
      let size ← r.required "size" (Json.asUInt? 64)
      some (.carray base size)
  | "Tuple" => aggregate? style .tuple v
  | "List" => aggregate? style .list v
  | "Module" => do
      let r ← v.fields? style ["name", "is_numpy"]
      let name ← r.required "name" Json.asString?
      let isNumpy ← r.required "is_numpy" Json.asBool?
      some (.module name isNumpy)
  | "ModuleAttribute" => do
      let r ← v.fields? style ["module", "attr", "is_numpy"]
      let owner ← r.required "module" Json.asString?
      let attr ← r.required "attr" Json.asString?
      let isNumpy ← r.required "is_numpy" Json.asBool?
      some (.moduleAttribute owner attr isNumpy)
  | "NumpyDtype" => (part v).map .dtype
  | "Builtin" => v.asString?.map .builtin
  | "Global" => v.asString?.map .global
  | "Function" => (signature? part v).map fun s => .function s.args s.ret
  | _ => none

/-- Read a type, given a reader of the types inside. -/
def ofLayer? (part : Json → Option Ty) (v : Json) : Option Ty :=
  match v.variant? with
  | none => none
  | some (tag, none) | some (tag, some .null) => ofTag? tag
  | some (tag, some v) => ofPayload? style part tag v

/-- Read a type from a value of bounded depth. -/
def ofDepth? : Nat → Json → Option Ty
  | 0 => fun _ => none
  | depth + 1 => ofLayer? style (ofDepth? depth)

/-- Read a type. -/
def ofJson? (v : Json) : Option Ty := ofDepth? style v.depth v

end Ty

namespace FunctionType

/-- The JSON form of a function type. -/
def toJson (s : FunctionType) : Json :=
  .obj [("args", .arr (Ty.toJsonAll s.args)), ("ret", s.ret.toJson)]

/-- Read a function type. -/
def ofJson? (style : Json.Style) (v : Json) : Option FunctionType :=
  Ty.signature? (Ty.ofJson? style) v

end FunctionType

namespace Variable

/-- The JSON form of a binding. -/
def toJson (var : Variable) : Json :=
  .obj [("ty", .option Ty.toJson var.ty), ("is_local", .bool var.isLocal),
    ("is_constant", .bool var.isConstant),
    ("constant_value", .option Constant.toJson var.constantValue),
    ("name", .option .str var.name)]

/-- Read a binding. -/
def ofJson? (style : Json.Style) (v : Json) : Option Variable := do
  let r ← v.record? ["ty", "is_local", "is_constant", "constant_value", "name"]
  let ty ← r.optional "ty" (Ty.ofJson? style)
  let isLocal ← r.required "is_local" Json.asBool?
  let isConstant ← r.required "is_constant" Json.asBool?
  let constantValue ← r.optional "constant_value" Constant.ofJson?
  let name ← r.optional "name" Json.asString?
  some { ty, isLocal, isConstant, constantValue, name }

end Variable

namespace SymbolId

/-- The JSON form of a binding's identity. -/
def toJson (id : SymbolId) : Json := .nat id.index

/-- Read a binding's identity. -/
def ofJson? (v : Json) : Option SymbolId := (v.asUInt? 32).map .mk

end SymbolId

/-- The JSON form of a symbol table. -/
def SymbolTable.toJson (table : SymbolTable) : Json :=
  .obj [("vars", .arr (table.vars.map Variable.toJson)),
    ("names", .obj (table.names.map fun (name, id) => (name, id.toJson))),
    ("return_slot", .option SymbolId.toJson table.returnSlot)]

end KernelFront
