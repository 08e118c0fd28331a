import KernelFront.Json.Value

/-! # Reading JSON values

Readers of the parts of a JSON value. They refuse with `none`. A record is an object whose members
are its fields, or an array of its fields in order; whether the fields of an alternative may also be
such an array is up to whoever reads. Members that are no fields are ignored, a field that occurs
twice is refused. A field is required, or optional, or has a default; `null` stands for an absent
optional value only.
-/

namespace KernelFront.Json

/-- A truth value. -/
def asBool? : Json → Option Bool
  | .bool b => some b
  | _ => none

/-- A text. -/
def asString? : Json → Option String
  | .str s => some s
  | _ => none

/-- An integer literal in a closed range. -/
def asIntIn? (low high : Int) : Json → Option Int
  | .int n => if low ≤ n ∧ n ≤ high then some n else none
  | _ => none

/-- A signed integer of sixty-four bits. -/
def asInt64? : Json → Option Int := asIntIn? (-0x8000000000000000) 0x7FFFFFFFFFFFFFFF

/-- An unsigned integer of the given width. -/
def asUInt? (bits : Nat) : Json → Option Nat
  | .int n => if 0 ≤ n ∧ n < (1 <<< bits : Nat) then some n.toNat else none
  | _ => none

/-- A floating-point number; an integer literal stands for the nearest one. -/
def asBinary64? : Json → Option Binary64
  | .float x => some x
  | .int n => some (.ofInt n)
  | _ => none

/-- An array with every item read. -/
def asList? {α : Type} (f : Json → Option α) : Json → Option (List α)
  | .arr items => items.mapM f
  | _ => none

/-- `null`, or a value. -/
def asOption? {α : Type} (f : Json → Option α) : Json → Option (Option α)
  | .null => some none
  | v => (f v).map some

/-- A tag alone, or an object whose only member is a tag with a payload. -/
def variant? : Json → Option (String × Option Json)
  | .str tag => some (tag, none)
  | .obj [(tag, payload)] => some (tag, some payload)
  | _ => none

/-- The fields of a record. -/
structure Record where
  members : List (String × Json)
  /-- The record was written as an array. -/
  positional : Bool

/-- The fields of an object; a field that occurs twice is refused. -/
def namedRecord? (fields : List String) : Json → Option Record
  | .obj members =>
      if fields.all fun field => (members.filter (·.1 = field)).length ≤ 1 then
        some ⟨members, false⟩
      else none
  | _ => none

/-- The fields of an object or of an array. -/
def record? (fields : List String) : Json → Option Record
  | .arr items => if items.length ≤ fields.length then some ⟨fields.zip items, true⟩ else none
  | v => namedRecord? fields v

/-- How the fields of an alternative may be written. -/
inductive Style where
  /-- As an object. -/
  | named
  /-- As an object or as an array. -/
  | compact
  deriving DecidableEq, Repr

/-- The fields of an alternative. -/
def fields? (style : Style) (fields : List String) (v : Json) : Option Record :=
  match style with
  | .named => v.namedRecord? fields
  | .compact => v.record? fields

namespace Record

/-- A field that must be present. -/
def required {α : Type} (r : Record) (field : String) (f : Json → Option α) : Option α :=
  (r.members.lookup field).bind f

/-- A field that may be absent from an object, or `null`. -/
def optional {α : Type} (r : Record) (field : String) (f : Json → Option α) :
    Option (Option α) :=
  match r.members.lookup field with
  | some v => asOption? f v
  | none => if r.positional then none else some none

/-- A field with a value for its absence. -/
def defaulted {α : Type} (r : Record) (field : String) (absent : α) (f : Json → Option α) :
    Option α :=
  match r.members.lookup field with
  | some v => f v
  | none => some absent

end Record

end KernelFront.Json
