import KernelFront.Host.Function
import KernelFront.Inference.Scope

/-! # Rules for attributes

The attributes of complex numbers, of modules and of arrays are known to the compiler. Any other
attribute is read from the boxed value at run time, and cannot be written.
-/

namespace KernelFront.Inference

/-- Read an attribute of the boxed value by its name. -/
def dynamicAttribute (span : Span) (value : Expr) (attr : String) (access : Access)
    (table : SymbolTable) : Except TypeError Expr :=
  match access with
  | .store => do
      let ty ← typeOf table value
      throw ⟨.invalidAttribute ty attr, span⟩
  | .load =>
      .ok (Host.Function.getAttrString.call
        [value.convert table .object, literal (.str attr) span] span)

/-- The type of the metadata of an array. -/
def metadataType (elem : Ty) (ndim : Nat) : ArrayAttr → Ty
  | .data => .pointer elem
  | .shape | .strides => .carray .intp ndim
  | .ndim => .int32

variable (setting : Setting)

/-- An attribute of a value. -/
def typeAttribute (span : Span) (value : Expr) (attr : String) (access : Access)
    (table : SymbolTable) : Except TypeError Expr := do
  let ty ← typeOf table value
  let known (ty : Ty) : Except TypeError Expr :=
    pure (.attribute (.typed span ty) value attr access)
  match ty with
  | .complex bits =>
      if attr ≠ "real" ∧ attr ≠ "imag" then throw ⟨.invalidAttribute ty attr, span⟩
      else if access = .store then throw ⟨.readOnlyAttribute attr, span⟩
      else known (.float bits)
  | .module name isNumpy =>
      match setting.names.attribute? name attr with
      | some .newAxis => known .newAxis
      | some (.dtype ty) => known (.dtype ty)
      | some .function | some .other => known (.moduleAttribute name attr isNumpy)
      | none => dynamicAttribute span value attr access table
  | .object => known .object
  | .array elem layout =>
      match ArrayAttr.ofName? attr with
      | none => dynamicAttribute span value attr access table
      | some field =>
          if access = .store then throw ⟨.readOnlyAttribute attr, span⟩
          else
            pure (.arrayAttribute (.typed span (metadataType elem layout.ndim field)) field value
              access)
  | _ => dynamicAttribute span value attr access table

end KernelFront.Inference
