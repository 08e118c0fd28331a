import KernelFront.Number.Shortest

/-! # JSON values

A JSON value as the tree format uses it. Numbers keep the difference between an integer and a
floating-point literal, floating-point numbers are exact doubles, and the members of an object keep
their order and their repetitions.
-/

namespace KernelFront

/-- A JSON value. -/
inductive Json where
  | null
  | bool (value : Bool)
  | int (value : Int)
  | float (value : Binary64)
  | str (text : String)
  | arr (items : List Json)
  | obj (members : List (String × Json))
  deriving Repr, Inhabited

namespace Json

mutual

/-- The number of values nested in one another. -/
def depth : Json → Nat
  | .arr items => depthAll items + 1
  | .obj members => depthMembers members + 1
  | _ => 1

/-- The largest depth among some values. -/
def depthAll : List Json → Nat
  | [] => 0
  | v :: vs => max (depth v) (depthAll vs)

/-- The largest depth among the values of some members. -/
def depthMembers : List (String × Json) → Nat
  | [] => 0
  | (_, v) :: members => max (depth v) (depthMembers members)

end

/-- A floating-point number; what is not finite has no literal and becomes `null`. -/
def ofBinary64 (x : Binary64) : Json := if x.isFinite then .float x else .null

/-- A natural number. -/
def nat (n : Nat) : Json := .int n

/-- An optional value; absence is `null`. -/
def option {α : Type} (f : α → Json) : Option α → Json
  | none => .null
  | some a => f a

/-- A list of texts. -/
def strings (texts : List String) : Json := .arr (texts.map .str)

/-- A value named by a tag: an object with one member. -/
def tagged (tag : String) (payload : Json) : Json := .obj [(tag, payload)]

/-- A tag with a record of fields. -/
def taggedRecord (tag : String) (fields : List (String × Json)) : Json := tagged tag (.obj fields)

end Json

end KernelFront
