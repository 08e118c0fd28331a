import KernelFront.Toml.Moment

/-! # TOML documents

A document is a table of named values. Tables come to be in four ways, and the way decides who may
still add to a table: a header may be given once, the tables on the way to it exist without a header
of their own, a dotted key makes tables that only dotted keys extend, and an inline table is closed.
-/

namespace KernelFront

namespace Toml

/-- How a table came to be. -/
inductive Origin where
  /-- Under a header of its own. -/
  | header
  /-- On the way to a header. -/
  | implicit
  /-- On the way to a dotted key. -/
  | dotted
  /-- Between braces. -/
  | inline
  deriving DecidableEq, Repr

end Toml

/-- A TOML value. -/
inductive Toml where
  | str (text : String)
  | bool (value : Bool)
  /-- A number as it is written. -/
  | number (text : String)
  /-- A date or a time. -/
  | moment (moment : Toml.Moment)
  | arr (items : List Toml)
  | table (origin : Toml.Origin) (members : List (String × Toml))
  /-- Tables that are written one by one under the same header. -/
  | tables (items : List (List (String × Toml)))
  deriving Repr, Inhabited

namespace Toml

/-- The named values of a table. -/
abbrev Members := List (String × Toml)

/-- Give a name a value, in place if it has one. -/
def setMember (key : String) (value : Toml) : Members → Members
  | [] => [(key, value)]
  | (other, old) :: members =>
      if other = key then (key, value) :: members
      else (other, old) :: setMember key value members

/-- A change of a table, which may be refused. -/
abbrev Change := Origin → Members → Option (Origin × Members)

/-- Apply a change to the table that a path leads to. Tables that do not exist are made. A dotted
path does not enter a table that has a header, and no path enters a closed table or a plain value.
-/
def changeAt (isDotted : Bool) (change : Change) : List String → Change
  | [], origin, members => change origin members
  | key :: path, origin, members => do
      let value ← match members.lookup key with
        | none => do
            let made := if isDotted then .dotted else .implicit
            let (childOrigin, child) ← changeAt isDotted change path made []
            some (.table childOrigin child)
        | some (.table .inline _) => none
        | some (.table childOrigin child) =>
            if isDotted && childOrigin = .header then none
            else do
              let (childOrigin, child) ← changeAt isDotted change path childOrigin child
              some (.table childOrigin child)
        | some (.tables items) => do
            let last ← items.getLast?
            let (_, child) ← changeAt isDotted change path .header last
            some (.tables (items.dropLast ++ [child]))
        | some _ => none
      some (origin, setMember key value members)

/-- Give a new name a value. -/
def insertMember (isDotted : Bool) (key : String) (value : Toml) : Change := fun origin members =>
  if (origin = .dotted) ≠ isDotted then none
  else if (members.lookup key).isSome then none
  else some (origin, members ++ [(key, value)])

/-- Give a dotted name a value. -/
def assign (path : List String) (key : String) (value : Toml) : Change :=
  changeAt true (insertMember (path ≠ []) key value) path

/-- Begin the table of a header. -/
def openTable (path : List String) (key : String) : Change :=
  changeAt false (fun origin members =>
    match members.lookup key with
    | none => some (origin, members ++ [(key, .table .header [])])
    | some (.table .implicit child) => some (origin, setMember key (.table .header child) members)
    | some _ => none) path

/-- Begin another table of an array of tables. -/
def openElement (path : List String) (key : String) : Change :=
  changeAt false (fun origin members =>
    match members.lookup key with
    | none => some (origin, members ++ [(key, .tables [[]])])
    | some (.tables items) => some (origin, setMember key (.tables (items ++ [[]])) members)
    | some _ => none) path

end Toml

end KernelFront
