import KernelFront.Tree.Locals
import KernelFront.Tree.Traversal

/-! # What function trees mean

An interpreter for trees, before and after their loops are counted. Integers, arrays, shapes and
ranges are values of their own, since loops count with them. Everything else that a program computes
with, the contents of arrays included, belongs to a machine that the interpreter knows nothing
about.
-/

namespace KernelFront

namespace Meaning

/-- Why an execution stops without an outcome. -/
inductive Halt where
  /-- Something has no value. -/
  | stuck
  /-- A loop was cut off. -/
  | endless
  deriving DecidableEq, Repr

/-- A value. -/
inductive Value (Datum : Type) where
  | int (value : Int)
  /-- An array with the lengths of its axes. -/
  | array (dims : List Nat) (data : Datum)
  /-- The lengths of the axes of an array. -/
  | shape (dims : List Nat)
  | range (start stop step : Int)
  | datum (data : Datum)
  deriving DecidableEq, Repr

/-- A computation with a state that may stop early. -/
abbrev Effect (σ α : Type) := ExceptT Halt (StateM σ) α

/-- How a computation ends, and in which state. -/
def runFrom {σ α : Type} (effect : Effect σ α) (state : σ) : Except Halt α × σ :=
  effect.run.run state

/-- What programs compute with besides counters. Everything may depend on a memory and change it. -/
structure Machine where
  Datum : Type
  Memory : Type
  /-- The value of a node, given the values of its parts. -/
  perform : Expr → List (Value Datum) → Effect Memory (Value Datum)
  /-- Whether a value counts as true. -/
  truth : Value Datum → Effect Memory Bool
  /-- Convert a value to a type. -/
  convert : Ty → Value Datum → Effect Memory (Value Datum)
  /-- The integer that a value stands for as a bound. -/
  bound : Value Datum → Effect Memory Int
  /-- The element of a value at an index. -/
  element : Value Datum → Int → Effect Memory (Value Datum)
  /-- The parts of a value that is stored in so many targets at once. -/
  unpack : Nat → Value Datum → Effect Memory (List (Value Datum))
  /-- Store a value in a place inside other values, given the values of the parts of the target. -/
  assign : Expr → List (Value Datum) → Value Datum → Effect Memory Unit
  /-- Print values to a destination. -/
  print : Option (Value Datum) → List (Value Datum) → Bool → Effect Memory Unit

namespace Machine

variable (m : Machine)

/-- The values of a machine. -/
abbrev Val := Value m.Datum

/-- A value that must be known. -/
def known : Option m.Val → Effect m.Memory m.Val
  | some value => pure value
  | none => throw .stuck

/-- The integer that a value stands for. -/
def count : m.Val → Effect m.Memory Int
  | .int value => pure value
  | value => m.bound value

/-- The lengths of the axes of an array. -/
def shapeOf : m.Val → Effect m.Memory m.Val
  | .array dims _ => pure (.shape dims)
  | _ => throw .stuck

/-- The number of elements of an array along its first axis. -/
def lengthOf : m.Val → Effect m.Memory Nat
  | .array (length :: _) _ => pure length
  | _ => throw .stuck

/-- What a value holds at an index. -/
def item : m.Val → Int → Effect m.Memory m.Val
  | .shape dims, .ofNat axis =>
      match dims[axis]? with
      | some length => pure (.int length)
      | none => throw .stuck
  | .shape _, .negSucc _ => throw .stuck
  | value, index => m.element value index

/-- Convert a value to a type. Between integer types this keeps the value. -/
def convertTo (target : Ty) : m.Val → Effect m.Memory m.Val
  | .int value => if target.isInt then pure (.int value) else m.convert target (.int value)
  | value => m.convert target value

/-- Lengths survive the conversion to a type that loops count in. -/
def Counts (ty : Ty) : Prop :=
  ∀ length : Nat, m.convertTo ty (.int length) >>= m.count = pure (length : Int)

/-- Make a value of one type fit a place of another. -/
def fit (ty wanted : Ty) (value : m.Val) : Effect m.Memory m.Val :=
  if ty = wanted then pure value else m.convertTo wanted value

end Machine

variable (m : Machine) (names : String → Option m.Val) (temps : TempId → Option m.Val)

mutual

/-- The value of an expression. -/
def eval : Expr → Effect m.Memory m.Val
  | .name _ id _ => m.known (names id)
  | .temp _ id _ => m.known (temps id)
  | .const _ (.int value) => pure (.int value)
  | e@(.const _ _) | e@(.ellipsis _) => m.perform e []
  | e@(.binOp _ left _ right) => do m.perform e [← eval left, ← eval right]
  | .boolOp _ op values => evalUntil op values
  | e@(.unaryOp _ _ operand) => do m.perform e [← eval operand]
  | e@(.compare _ left _ comparators) => do m.perform e ((← eval left) :: (← evalAll comparators))
  | e@(.call _ func args keywords) | e@(.objectCall _ func args keywords) => do
      m.perform e ((← eval func) :: ((← evalAll args) ++ (← evalKeywords keywords)))
  | e@(.attribute _ value _ _) => do m.perform e [← eval value]
  | e@(.subscript _ value selector _) => do
      let value ← eval value
      match ← eval selector with
      | .int index => m.item value index
      | selector => m.perform e [value, selector]
  | .index _ value => eval value
  | e@(.slice _ lower upper step) => do
      m.perform e ((← evalPart lower) ++ (← evalPart upper) ++ (← evalPart step))
  | e@(.extSlice _ dims) => do m.perform e (← evalAll dims)
  | e@(.tuple _ elts _) | e@(.list _ elts _) => do m.perform e (← evalAll elts)
  | e@(.dict _ keys values) => do m.perform e ((← evalAll keys) ++ (← evalAll values))
  | .coercion _ node target => do m.convertTo target (← eval node)
  | e@(.deferredCoercion _ node _) => do m.perform e [← eval node]
  | .range _ start stop step => do
      let start ← m.count (← eval start)
      let stop ← m.count (← eval stop)
      let step ← m.count (← eval step)
      pure (.range start stop step)
  | e@(.nativeCall _ _ _ args) => do m.perform e (← evalAll args)
  | .arrayAttribute _ .shape array _ => do m.shapeOf (← eval array)
  | e@(.arrayAttribute _ _ array _) => do m.perform e [← eval array]
  | .dataPointer _ array => eval array
  | .objectTemp _ node _ => eval node

/-- The values of several expressions, from left to right. -/
def evalAll : List Expr → Effect m.Memory (List m.Val)
  | [] => pure []
  | e :: es => do pure ((← eval e) :: (← evalAll es))

/-- The values of keyword arguments. -/
def evalKeywords : List (String × Expr) → Effect m.Memory (List m.Val)
  | [] => pure []
  | (_, e) :: kws => do pure ((← eval e) :: (← evalKeywords kws))

/-- The value of an optional part. -/
def evalPart : Option Expr → Effect m.Memory (List m.Val)
  | none => pure []
  | some e => do pure [← eval e]

/-- The first value that decides a short-circuiting operator, or the last one. -/
def evalUntil (op : BoolOp) : List Expr → Effect m.Memory m.Val
  | [] => throw .stuck
  | [e] => eval e
  | e :: es => do
      let value ← eval e
      if (← m.truth value) = decide (op = .or) then pure value else evalUntil op es

end

/-! ## Statements -/

/-- What a running function can change. -/
structure State where
  names : String → Option m.Val
  temps : TempId → Option m.Val
  memory : m.Memory

/-- How a statement ends. -/
inductive Outcome where
  | normal
  | breaks
  | continues
  | returns (value : Option m.Val)

/-- A computation of a running function. -/
abbrev Action (α : Type) := Effect (State m) α

/-- How a loop over an array gets at the array for each of its elements. -/
inductive Reading where
  /-- It keeps the array that its iterable denoted at first. -/
  | once
  /-- It looks a plain name up again. -/
  | again
  deriving DecidableEq, Repr

variable {m}

/-- A computation that changes nothing but the memory. -/
def reading {α : Type} (effect : State m → Effect m.Memory α) : Action m α :=
  ExceptT.mk fun state =>
    let (result, memory) := runFrom (effect state) state.memory
    (result, { state with memory })

/-- The value of an expression in the current state. -/
def valueOf (e : Expr) : Action m m.Val := reading fun state => eval m state.names state.temps e

/-- What the machine does. -/
def lift {α : Type} (effect : Effect m.Memory α) : Action m α := reading fun _ => effect

/-- Bind a name. -/
def State.setName (state : State m) (name : String) (value : m.Val) : State m :=
  { state with names := fun other => if other = name then some value else state.names other }

/-- Set a temporary. -/
def State.setTemp (state : State m) (id : TempId) (value : m.Val) : State m :=
  { state with temps := fun other => if other = id then some value else state.temps other }

mutual

/-- Store a value in a target. -/
def store : Expr → m.Val → Action m Unit
  | .name _ id _, value => modify fun state => state.setName id value
  | .temp _ id _, value => modify fun state => state.setTemp id value
  | .tuple _ elts _, value | .list _ elts _, value => do
      storeEach elts (← lift (m.unpack elts.length value))
  | e@(.subscript _ array selector _), value => do
      let parts := [← valueOf array, ← valueOf selector]
      lift (m.assign e parts value)
  | e@(.attribute _ node _ _), value | e@(.arrayAttribute _ _ node _), value => do
      lift (m.assign e [← valueOf node] value)
  | e, value => lift (m.assign e [] value)

/-- Store values in targets, one in each. -/
def storeEach : List Expr → List m.Val → Action m Unit
  | [], _ => pure ()
  | _ :: _, [] => throw .stuck
  | e :: es, value :: values => do
      store e value
      storeEach es values

end

/-- The steps of a loop, one for each item, and what follows when none of them leaves it. -/
def forEach {α : Type} (step : α → Action m (Outcome m)) (orelse : Action m (Outcome m)) :
    List α → Action m (Outcome m)
  | [] => orelse
  | item :: items => do
      match ← step item with
      | .normal | .continues => forEach step orelse items
      | .breaks => pure .normal
      | .returns value => pure (.returns value)

/-- The steps of a loop while a test holds, cut off after some steps. -/
def repeatWhile (test : Action m Bool) (body orelse : Action m (Outcome m)) :
    Nat → Action m (Outcome m)
  | 0 => throw .endless
  | fuel + 1 => do
      if ← test then
        match ← body with
        | .normal | .continues => repeatWhile test body orelse fuel
        | .breaks => pure .normal
        | .returns value => pure (.returns value)
      else orelse

/-- The steps of a loop over a range: one for each counter from the start, as long as it is below
the stop. A range that never gets there is cut off. -/
def forCounters (fuel : Nat) (step : Int → Action m (Outcome m)) (orelse : Action m (Outcome m)) :
    m.Val → Action m (Outcome m)
  | .range start stop stride =>
      let counter (position : Nat) : Int := start + stride * position
      if stop ≤ start then orelse
      else if 0 < stride then
        forEach step orelse ((List.range ((stop - start + stride - 1) / stride).toNat).map counter)
      else forEach step (throw .endless) ((List.range fuel).map counter)
  | _ => throw .stuck

/-- The steps of a loop over the elements of an array: one for each position of the array, which
stores the element at that position, converted to the type of the target. For each element `again`
gets at the array. -/
def forElements (again : Action m m.Val) (target : Expr) (elem : Ty)
    (body orelse : Action m (Outcome m)) (array : m.Val) : Action m (Outcome m) := do
  let step (position : Nat) := do
    let array ← again
    let element ← lift (m.item array position)
    store target (← lift (m.fit elem (target.ty.getD .object) element))
    body
  forEach step orelse (List.range (← lift (m.lengthOf array)))

mutual

/-- Run a statement. A loop that carries a counter is a counted loop. A loop that carries none is
one of the source: over an array it takes the elements one by one. -/
def exec (way : Reading) (fuel : Nat) : Stmt → Action m (Outcome m)
  | .assign _ targets value => do
      storeEach targets (List.replicate targets.length (← valueOf value))
      pure .normal
  | .augAssign _ target op value => do
      let parts := [← valueOf target, ← valueOf value]
      store target (← lift (m.perform (.binOp target.note target op value) parts))
      pure .normal
  | .forIn _ _ iter body orelse (some counter) => do
      let step (position : Int) := do
        store counter (.int position)
        execBody way fuel body
      forCounters fuel step (execBody way fuel orelse) (← valueOf iter)
  | .forIn _ target iter body orelse none =>
      match iter.ty with
      | some (.array elem _) => do
          let array ← valueOf iter
          let again := if way = .again ∧ iter.asName.isSome then valueOf iter else pure array
          forElements again target elem (execBody way fuel body) (execBody way fuel orelse) array
      | _ => do
          let step (position : Int) := do
            store target (.int position)
            execBody way fuel body
          forCounters fuel step (execBody way fuel orelse) (← valueOf iter)
  | .whileLoop _ test body orelse =>
      let holds := do lift (m.truth (← valueOf test))
      repeatWhile holds (execBody way fuel body) (execBody way fuel orelse) fuel
  | .branch _ test body orelse => do
      if ← lift (m.truth (← valueOf test)) then execBody way fuel body else execBody way fuel orelse
  | .ret _ none => pure (.returns none)
  | .ret _ (some value) => do pure (.returns (some (← valueOf value)))
  | .expr _ value => do
      let _ ← valueOf value
      pure .normal
  | .print _ values dest newline => do
      let dest ← dest.mapM valueOf
      lift (m.print dest (← values.mapM valueOf) newline)
      pure .normal
  | .global _ _ | .pass _ => pure .normal
  | .break _ => pure .breaks
  | .continue _ => pure .continues

/-- Run the statements of a body until one of them leaves it. -/
def execBody (way : Reading) (fuel : Nat) : List Stmt → Action m (Outcome m)
  | [] => pure .normal
  | stmt :: body => do
      match ← exec way fuel stmt with
      | .normal => execBody way fuel body
      | outcome => pure outcome

end

-- Many proofs unfold these functions, so their equations are made here, once for all of them.
attribute [local simp] eval evalAll evalKeywords evalPart evalUntil store storeEach exec execBody

end Meaning

end KernelFront
