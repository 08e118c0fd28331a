import KernelFront.Format.Ty
import KernelFront.Tree.Basic

/-! # The tree format

The JSON form of functions, as a parser hands them in and as the compiler gives them out. Only the
form of an expression or statement must be present: spans, bindings, types, contexts, keyword
arguments, alternatives, loop counters, print destinations, error values and temporaries have
defaults.
-/

namespace KernelFront

namespace Span

/-- The JSON form of a span. -/
def toJson (s : Span) : Json := .obj [("start", .nat s.start), ("end", .nat s.stop)]

/-- Read a span. -/
def ofJson? (v : Json) : Option Span := do
  let r ← v.record? ["start", "end"]
  let start ← r.required "start" (Json.asUInt? 32)
  let stop ← r.required "end" (Json.asUInt? 32)
  some ⟨start, stop⟩

end Span

/-- Read an alternative without fields by its name. -/
def Json.asTag? {α : Type} (ofTag? : String → Option α) (v : Json) : Option α :=
  match v.variant? with
  | some (tag, none) | some (tag, some .null) => ofTag? tag
  | _ => none

namespace BinOp

/-- The operator's name in the format. -/
def tag : BinOp → String
  | .add => "Add"
  | .sub => "Sub"
  | .mult => "Mult"
  | .div => "Div"
  | .floorDiv => "FloorDiv"
  | .mod => "Mod"
  | .pow => "Pow"
  | .lShift => "LShift"
  | .rShift => "RShift"
  | .bitOr => "BitOr"
  | .bitXor => "BitXor"
  | .bitAnd => "BitAnd"

/-- The operator of a name. -/
def ofTag? : String → Option BinOp
  | "Add" => some .add
  | "Sub" => some .sub
  | "Mult" => some .mult
  | "Div" => some .div
  | "FloorDiv" => some .floorDiv
  | "Mod" => some .mod
  | "Pow" => some .pow
  | "LShift" => some .lShift
  | "RShift" => some .rShift
  | "BitOr" => some .bitOr
  | "BitXor" => some .bitXor
  | "BitAnd" => some .bitAnd
  | _ => none

end BinOp

namespace BoolOp

/-- The operator's name in the format. -/
def tag : BoolOp → String
  | .and => "And"
  | .or => "Or"

/-- The operator of a name. -/
def ofTag? : String → Option BoolOp
  | "And" => some .and
  | "Or" => some .or
  | _ => none

end BoolOp

namespace UnaryOp

/-- The operator's name in the format. -/
def tag : UnaryOp → String
  | .not => "Not"
  | .neg => "USub"
  | .pos => "UAdd"
  | .invert => "Invert"

/-- The operator of a name. -/
def ofTag? : String → Option UnaryOp
  | "Not" => some .not
  | "USub" => some .neg
  | "UAdd" => some .pos
  | "Invert" => some .invert
  | _ => none

end UnaryOp

namespace CmpOp

/-- The operator's name in the format. -/
def tag : CmpOp → String
  | .eq => "Eq"
  | .notEq => "NotEq"
  | .lt => "Lt"
  | .ltE => "LtE"
  | .gt => "Gt"
  | .gtE => "GtE"
  | .is => "Is"
  | .isNot => "IsNot"
  | .isIn => "In"
  | .notIn => "NotIn"

/-- The operator of a name. -/
def ofTag? : String → Option CmpOp
  | "Eq" => some .eq
  | "NotEq" => some .notEq
  | "Lt" => some .lt
  | "LtE" => some .ltE
  | "Gt" => some .gt
  | "GtE" => some .gtE
  | "Is" => some .is
  | "IsNot" => some .isNot
  | "In" => some .isIn
  | "NotIn" => some .notIn
  | _ => none

end CmpOp

namespace Access

/-- The context's name in the format. -/
def tag : Access → String
  | .load => "Load"
  | .store => "Store"

/-- The context of a name. -/
def ofTag? : String → Option Access
  | "Load" => some .load
  | "Store" => some .store
  | _ => none

/-- The context field of a record; absent is a load. -/
def field? (r : Json.Record) : Option Access :=
  r.defaulted "ctx" .load (Json.asTag? ofTag?)

end Access

namespace ArrayAttr

/-- The attribute's name in the format. -/
def tag : ArrayAttr → String
  | .data => "Data"
  | .shape => "Shape"
  | .strides => "Strides"
  | .ndim => "Ndim"

/-- The attribute of a name in the format. -/
def ofTag? : String → Option ArrayAttr
  | "Data" => some .data
  | "Shape" => some .shape
  | "Strides" => some .strides
  | "Ndim" => some .ndim
  | _ => none

end ArrayAttr

namespace TempId

/-- The JSON form of a temporary's number. -/
def toJson (id : TempId) : Json := .nat id.index

/-- Read a temporary's number. -/
def ofJson? (v : Json) : Option TempId := (v.asUInt? 32).map .mk

end TempId

namespace TempKind

/-- The kind's name in the format. -/
def tag : TempKind → String
  | .index => "Index"
  | .array => "Array"
  | .object => "Object"

/-- The kind of a name. -/
def ofTag? : String → Option TempKind
  | "Index" => some .index
  | "Array" => some .array
  | "Object" => some .object
  | _ => none

end TempKind

namespace TempDecl

/-- The JSON form of a temporary. -/
def toJson (d : TempDecl) : Json :=
  .obj [("id", d.id.toJson), ("ty", d.ty.toJson), ("kind", .str d.kind.tag)]

/-- Read a temporary. -/
def ofJson? (style : Json.Style) (v : Json) : Option TempDecl := do
  let r ← v.record? ["id", "ty", "kind"]
  let id ← r.required "id" TempId.ofJson?
  let ty ← r.required "ty" (Ty.ofJson? style)
  let kind ← r.required "kind" (Json.asTag? TempKind.ofTag?)
  some ⟨id, ty, kind⟩

end TempDecl

namespace Binding

/-- The JSON form of what inference attached. -/
def toJson : Binding → Json
  | .symbol id => .tagged "Symbol" id.toJson
  | .value var => .tagged "Value" var.toJson

/-- Read what inference attached. -/
def ofJson? (style : Json.Style) (v : Json) : Option Binding :=
  match v.variant? with
  | some ("Symbol", some v) => (SymbolId.ofJson? v).map .symbol
  | some ("Value", some v) => (Variable.ofJson? style v).map .value
  | _ => none

end Binding

namespace Expr

/-- An expression's form with the fields that every expression has. -/
def wrap (note : Note) (form : Json) : Json :=
  .obj [("kind", form), ("span", note.span.toJson),
    ("binding", .option Binding.toJson note.binding), ("ty", .option Ty.toJson note.ty)]

mutual

/-- The JSON form of an expression. -/
def toJson : Expr → Json
  | .name n id a => wrap n (.taggedRecord "Name" [("id", .str id), ("ctx", .str a.tag)])
  | .const n value => wrap n (.tagged "Const" value.toJson)
  | .binOp n left op right =>
      wrap n (.taggedRecord "BinOp"
        [("left", toJson left), ("op", .str op.tag), ("right", toJson right)])
  | .boolOp n op values =>
      wrap n (.taggedRecord "BoolOp" [("op", .str op.tag), ("values", .arr (toJsonAll values))])
  | .unaryOp n op operand =>
      wrap n (.taggedRecord "UnaryOp" [("op", .str op.tag), ("operand", toJson operand)])
  | .compare n left ops comparators =>
      wrap n (.taggedRecord "Compare" [("left", toJson left),
        ("ops", .strings (ops.map CmpOp.tag)), ("comparators", .arr (toJsonAll comparators))])
  | .call n func args keywords =>
      wrap n (.taggedRecord "Call" [("func", toJson func), ("args", .arr (toJsonAll args)),
        ("keywords", .arr (toJsonKeywords keywords))])
  | .attribute n value attr a =>
      wrap n (.taggedRecord "Attribute"
        [("value", toJson value), ("attr", .str attr), ("ctx", .str a.tag)])
  | .subscript n value selector a =>
      wrap n (.taggedRecord "Subscript"
        [("value", toJson value), ("slice", toJson selector), ("ctx", .str a.tag)])
  | .index n value => wrap n (.tagged "Index" (toJson value))
  | .slice n lower upper step =>
      wrap n (.taggedRecord "Slice" [("lower", toJsonPart lower), ("upper", toJsonPart upper),
        ("step", toJsonPart step)])
  | .extSlice n dims => wrap n (.tagged "ExtSlice" (.arr (toJsonAll dims)))
  | .ellipsis n => wrap n (.str "Ellipsis")
  | .tuple n elts a =>
      wrap n (.taggedRecord "Tuple" [("elts", .arr (toJsonAll elts)), ("ctx", .str a.tag)])
  | .list n elts a =>
      wrap n (.taggedRecord "List" [("elts", .arr (toJsonAll elts)), ("ctx", .str a.tag)])
  | .dict n keys values =>
      wrap n (.taggedRecord "Dict"
        [("keys", .arr (toJsonAll keys)), ("values", .arr (toJsonAll values))])
  | .coercion n node target =>
      wrap n (.taggedRecord "Coercion" [("node", toJson node), ("target", target.toJson)])
  | .deferredCoercion n node slot =>
      wrap n (.taggedRecord "DeferredCoercion" [("node", toJson node), ("slot", slot.toJson)])
  | .range n start stop step =>
      wrap n (.taggedRecord "Range"
        [("start", toJson start), ("stop", toJson stop), ("step", toJson step)])
  | .nativeCall n symbol signature args =>
      wrap n (.taggedRecord "NativeCall" [("symbol", .str symbol),
        ("signature", signature.toJson), ("args", .arr (toJsonAll args))])
  | .objectCall n func args keywords =>
      wrap n (.taggedRecord "ObjectCall" [("func", toJson func), ("args", .arr (toJsonAll args)),
        ("keywords", .arr (toJsonKeywords keywords))])
  | .arrayAttribute n attr array a =>
      wrap n (.taggedRecord "ArrayAttribute"
        [("attr", .str attr.tag), ("array", toJson array), ("ctx", .str a.tag)])
  | .dataPointer n array => wrap n (.tagged "DataPointer" (toJson array))
  | .objectTemp n node id =>
      wrap n (.taggedRecord "ObjectTemp" [("node", toJson node), ("id", .option TempId.toJson id)])
  | .temp n id a => wrap n (.taggedRecord "Temp" [("id", id.toJson), ("ctx", .str a.tag)])

/-- The JSON form of each expression. -/
def toJsonAll : List Expr → List Json
  | [] => []
  | e :: es => toJson e :: toJsonAll es

/-- The JSON form of each keyword argument. -/
def toJsonKeywords : List (String × Expr) → List Json
  | [] => []
  | (arg, e) :: kws => .obj [("arg", .str arg), ("value", toJson e)] :: toJsonKeywords kws

/-- The JSON form of an optional part. -/
def toJsonPart : Option Expr → Json
  | none => .null
  | some e => toJson e

end

variable (style : Json.Style)

/-- Read a keyword argument, given a reader of expressions. -/
def keyword? (part : Json → Option Expr) (v : Json) : Option (String × Expr) := do
  let r ← v.record? ["arg", "value"]
  let arg ← r.required "arg" Json.asString?
  let value ← r.required "value" part
  some (arg, value)

/-- Read a form with fields, given the note of the expression and a reader of its parts. -/
def ofPayload? (part : Json → Option Expr) (n : Note) (tag : String) (v : Json) : Option Expr :=
  match tag with
  | "Name" => do
      let r ← v.fields? style ["id", "ctx"]
      let id ← r.required "id" Json.asString?
      let a ← Access.field? r
      some (.name n id a)
  | "Const" => (Constant.ofJson? v).map (.const n)
  | "BinOp" => do
      let r ← v.fields? style ["left", "op", "right"]
      let left ← r.required "left" part
      let op ← r.required "op" (Json.asTag? BinOp.ofTag?)
      let right ← r.required "right" part
      some (.binOp n left op right)
  | "BoolOp" => do
      let r ← v.fields? style ["op", "values"]
      let op ← r.required "op" (Json.asTag? BoolOp.ofTag?)
      let values ← r.required "values" (Json.asList? part)
      some (.boolOp n op values)
  | "UnaryOp" => do
      let r ← v.fields? style ["op", "operand"]
      let op ← r.required "op" (Json.asTag? UnaryOp.ofTag?)
      let operand ← r.required "operand" part
      some (.unaryOp n op operand)
  | "Compare" => do
      let r ← v.fields? style ["left", "ops", "comparators"]
      let left ← r.required "left" part
      let ops ← r.required "ops" (Json.asList? (Json.asTag? CmpOp.ofTag?))
      let comparators ← r.required "comparators" (Json.asList? part)
      some (.compare n left ops comparators)
  | "Call" => do
      let r ← v.fields? style ["func", "args", "keywords"]
      let func ← r.required "func" part
      let args ← r.defaulted "args" [] (Json.asList? part)
      let keywords ← r.defaulted "keywords" [] (Json.asList? (keyword? part))
      some (.call n func args keywords)
  | "Attribute" => do
      let r ← v.fields? style ["value", "attr", "ctx"]
      let value ← r.required "value" part
      let attr ← r.required "attr" Json.asString?
      let a ← Access.field? r
      some (.attribute n value attr a)
  | "Subscript" => do
      let r ← v.fields? style ["value", "slice", "ctx"]
      let value ← r.required "value" part
      let selector ← r.required "slice" part
      let a ← Access.field? r
      some (.subscript n value selector a)
  | "Index" => (part v).map (.index n)
  | "Slice" => do
      let r ← v.fields? style ["lower", "upper", "step"]
      let lower ← r.optional "lower" part
      let upper ← r.optional "upper" part
      let step ← r.optional "step" part
      some (.slice n lower upper step)
  | "ExtSlice" => (v.asList? part).map (.extSlice n)
  | "Tuple" => do
      let r ← v.fields? style ["elts", "ctx"]
      let elts ← r.required "elts" (Json.asList? part)
      let a ← Access.field? r
      some (.tuple n elts a)
  | "List" => do
      let r ← v.fields? style ["elts", "ctx"]
      let elts ← r.required "elts" (Json.asList? part)
      let a ← Access.field? r
      some (.list n elts a)
  | "Dict" => do
      let r ← v.fields? style ["keys", "values"]
      let keys ← r.required "keys" (Json.asList? part)
      let values ← r.required "values" (Json.asList? part)
      some (.dict n keys values)
  | "Coercion" => do
      let r ← v.fields? style ["node", "target"]
      let node ← r.required "node" part
      let target ← r.required "target" (Ty.ofJson? style)
      some (.coercion n node target)
  | "DeferredCoercion" => do
      let r ← v.fields? style ["node", "slot"]
      let node ← r.required "node" part
      let slot ← r.required "slot" SymbolId.ofJson?
      some (.deferredCoercion n node slot)
  | "Range" => do
      let r ← v.fields? style ["start", "stop", "step"]
      let start ← r.required "start" part
      let stop ← r.required "stop" part
      let step ← r.required "step" part
      some (.range n start stop step)
  | "NativeCall" => do
      let r ← v.fields? style ["symbol", "signature", "args"]
      let symbol ← r.required "symbol" Json.asString?
      let signature ← r.required "signature" (FunctionType.ofJson? style)
      let args ← r.required "args" (Json.asList? part)
      some (.nativeCall n symbol signature args)
  | "ObjectCall" => do
      let r ← v.fields? style ["func", "args", "keywords"]
      let func ← r.required "func" part
      let args ← r.required "args" (Json.asList? part)
      let keywords ← r.required "keywords" (Json.asList? (keyword? part))
      some (.objectCall n func args keywords)
  | "ArrayAttribute" => do
      let r ← v.fields? style ["attr", "array", "ctx"]
      let attr ← r.required "attr" (Json.asTag? ArrayAttr.ofTag?)
      let array ← r.required "array" part
      let a ← Access.field? r
      some (.arrayAttribute n attr array a)
  | "DataPointer" => (part v).map (.dataPointer n)
  | "ObjectTemp" => do
      let r ← v.fields? style ["node", "id"]
      let node ← r.required "node" part
      let id ← r.optional "id" TempId.ofJson?
      some (.objectTemp n node id)
  | "Temp" => do
      let r ← v.fields? style ["id", "ctx"]
      let id ← r.required "id" TempId.ofJson?
      let a ← Access.field? r
      some (.temp n id a)
  | _ => none

/-- Read a form, given the note of the expression and a reader of its parts. -/
def ofForm? (part : Json → Option Expr) (n : Note) (form : Json) : Option Expr :=
  match form.variant? with
  | none => none
  | some (tag, none) | some (tag, some .null) =>
      if tag = "Ellipsis" then some (.ellipsis n) else none
  | some (tag, some v) => ofPayload? style part n tag v

/-- Read an expression, given a reader of its parts. -/
def ofLayer? (part : Json → Option Expr) (v : Json) : Option Expr := do
  let r ← v.record? ["kind", "span", "binding", "ty"]
  let span ← r.defaulted "span" {} Span.ofJson?
  let binding ← r.defaulted "binding" none (Json.asOption? (Binding.ofJson? style))
  let ty ← r.defaulted "ty" none (Json.asOption? (Ty.ofJson? style))
  r.required "kind" (ofForm? style part { span, binding, ty })

/-- Read an expression from a value of bounded depth. -/
def ofDepth? : Nat → Json → Option Expr
  | 0 => fun _ => none
  | depth + 1 => ofLayer? style (ofDepth? depth)

/-- Read an expression. -/
def ofJson? (v : Json) : Option Expr := ofDepth? style v.depth v

end Expr

namespace Stmt

/-- A statement's form with the field that every statement has. -/
def wrap (span : Span) (form : Json) : Json := .obj [("kind", form), ("span", span.toJson)]

mutual

/-- The JSON form of a statement. -/
def toJson : Stmt → Json
  | .assign s targets value =>
      wrap s (.taggedRecord "Assign"
        [("targets", .arr (Expr.toJsonAll targets)), ("value", value.toJson)])
  | .augAssign s target op value =>
      wrap s (.taggedRecord "AugAssign"
        [("target", target.toJson), ("op", .str op.tag), ("value", value.toJson)])
  | .forIn s target iter body orelse index =>
      wrap s (.taggedRecord "For" [("target", target.toJson), ("iter", iter.toJson),
        ("body", .arr (toJsonAll body)), ("orelse", .arr (toJsonAll orelse)),
        ("index", .option Expr.toJson index)])
  | .whileLoop s test body orelse =>
      wrap s (.taggedRecord "While" [("test", test.toJson), ("body", .arr (toJsonAll body)),
        ("orelse", .arr (toJsonAll orelse))])
  | .branch s test body orelse =>
      wrap s (.taggedRecord "If" [("test", test.toJson), ("body", .arr (toJsonAll body)),
        ("orelse", .arr (toJsonAll orelse))])
  | .ret s value => wrap s (.taggedRecord "Return" [("value", .option Expr.toJson value)])
  | .expr s value => wrap s (.tagged "Expr" value.toJson)
  | .print s values dest newline =>
      wrap s (.taggedRecord "Print" [("values", .arr (Expr.toJsonAll values)),
        ("dest", .option Expr.toJson dest), ("nl", .bool newline)])
  | .global s names => wrap s (.taggedRecord "Global" [("names", .strings names)])
  | .pass s => wrap s (.str "Pass")
  | .break s => wrap s (.str "Break")
  | .continue s => wrap s (.str "Continue")

/-- The JSON form of each statement. -/
def toJsonAll : List Stmt → List Json
  | [] => []
  | s :: ss => toJson s :: toJsonAll ss

end

variable (style : Json.Style)

/-- Read a test with a body and an alternative, given a reader of statements. -/
def guarded? (part : Json → Option Stmt) (v : Json) :
    Option (Expr × List Stmt × List Stmt) := do
  let r ← v.fields? style ["test", "body", "orelse"]
  let test ← r.required "test" (Expr.ofJson? style)
  let body ← r.required "body" (Json.asList? part)
  let orelse ← r.defaulted "orelse" [] (Json.asList? part)
  some (test, body, orelse)

/-- Read a form with fields, given a reader of the statements inside. -/
def ofPayload? (part : Json → Option Stmt) (span : Span) (tag : String) (v : Json) :
    Option Stmt :=
  match tag with
  | "Assign" => do
      let r ← v.fields? style ["targets", "value"]
      let targets ← r.required "targets" (Json.asList? (Expr.ofJson? style))
      let value ← r.required "value" (Expr.ofJson? style)
      some (.assign span targets value)
  | "AugAssign" => do
      let r ← v.fields? style ["target", "op", "value"]
      let target ← r.required "target" (Expr.ofJson? style)
      let op ← r.required "op" (Json.asTag? BinOp.ofTag?)
      let value ← r.required "value" (Expr.ofJson? style)
      some (.augAssign span target op value)
  | "For" => do
      let r ← v.fields? style ["target", "iter", "body", "orelse", "index"]
      let target ← r.required "target" (Expr.ofJson? style)
      let iter ← r.required "iter" (Expr.ofJson? style)
      let body ← r.required "body" (Json.asList? part)
      let orelse ← r.defaulted "orelse" [] (Json.asList? part)
      let index ← r.defaulted "index" none (Json.asOption? (Expr.ofJson? style))
      some (.forIn span target iter body orelse index)
  | "While" =>
      (guarded? style part v).map fun (test, body, orelse) => .whileLoop span test body orelse
  | "If" =>
      (guarded? style part v).map fun (test, body, orelse) => .branch span test body orelse
  | "Return" => do
      let r ← v.fields? style ["value"]
      let value ← r.optional "value" (Expr.ofJson? style)
      some (.ret span value)
  | "Expr" => (Expr.ofJson? style v).map (.expr span)
  | "Print" => do
      let r ← v.fields? style ["values", "dest", "nl"]
      let values ← r.required "values" (Json.asList? (Expr.ofJson? style))
      let dest ← r.defaulted "dest" none (Json.asOption? (Expr.ofJson? style))
      let newline ← r.defaulted "nl" true Json.asBool?
      some (.print span values dest newline)
  | "Global" => do
      let r ← v.fields? style ["names"]
      let names ← r.required "names" (Json.asList? Json.asString?)
      some (.global span names)
  | _ => none

/-- The statements without fields by name. -/
def ofTag? (span : Span) : String → Option Stmt
  | "Pass" => some (.pass span)
  | "Break" => some (.break span)
  | "Continue" => some (.continue span)
  | _ => none

/-- Read a form, given a reader of the statements inside. -/
def ofForm? (part : Json → Option Stmt) (span : Span) (form : Json) : Option Stmt :=
  match form.variant? with
  | none => none
  | some (tag, none) | some (tag, some .null) => ofTag? span tag
  | some (tag, some v) => ofPayload? style part span tag v

/-- Read a statement, given a reader of the statements inside. -/
def ofLayer? (part : Json → Option Stmt) (v : Json) : Option Stmt := do
  let r ← v.record? ["kind", "span"]
  let span ← r.defaulted "span" {} Span.ofJson?
  r.required "kind" (ofForm? style part span)

/-- Read a statement from a value of bounded depth. -/
def ofDepth? : Nat → Json → Option Stmt
  | 0 => fun _ => none
  | depth + 1 => ofLayer? style (ofDepth? depth)

/-- Read a statement. -/
def ofJson? (v : Json) : Option Stmt := ofDepth? style v.depth v

end Stmt

namespace ErrorReturn

/-- The JSON form of the value returned on errors. -/
def toJson (r : ErrorReturn) : Json := .obj [("value", .option Expr.toJson r.value)]

/-- Read the value returned on errors. -/
def ofJson? (style : Json.Style) (v : Json) : Option ErrorReturn := do
  let r ← v.record? ["value"]
  let value ← r.optional "value" (Expr.ofJson? style)
  some ⟨value⟩

end ErrorReturn

namespace FunctionDef

/-- The JSON form of a function. -/
def toJson (f : FunctionDef) : Json :=
  .obj [("name", .str f.name), ("args", .strings f.args), ("body", .arr (Stmt.toJsonAll f.body)),
    ("span", f.span.toJson), ("error_return", .option ErrorReturn.toJson f.errorReturn),
    ("temps", .arr (f.temps.map TempDecl.toJson))]

/-- Read a function. -/
def ofJson? (style : Json.Style) (v : Json) : Option FunctionDef := do
  let r ← v.record? ["name", "args", "body", "span", "error_return", "temps"]
  let name ← r.required "name" Json.asString?
  let args ← r.required "args" (Json.asList? Json.asString?)
  let body ← r.required "body" (Json.asList? (Stmt.ofJson? style))
  let span ← r.defaulted "span" {} Span.ofJson?
  let errorReturn ← r.defaulted "error_return" none (Json.asOption? (ErrorReturn.ofJson? style))
  let temps ← r.defaulted "temps" [] (Json.asList? (TempDecl.ofJson? style))
  some { name, args, body, span, errorReturn, temps }

/-- Read the functions of a tree file: a list of functions, or one function. In a file the fields of
an alternative may be written as an array. -/
def listOfJson? (v : Json) : Option (List FunctionDef) :=
  match v.asList? (ofJson? .compact) with
  | some functions => some functions
  | none => (ofJson? .compact v).map ([·])

end FunctionDef

end KernelFront
