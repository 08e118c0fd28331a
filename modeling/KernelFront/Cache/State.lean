import KernelFront.Compilation
import KernelFront.Table

/-! # The state of a cache

A cache holds the sources of functions and one slot for each key, a name with the types of the
arguments. A slot is in flight while a thread compiles it and keeps the outcome afterwards, failures
included. The cache also knows which key each blocked thread waits for, so that it can refuse a wait
that would close a cycle.
-/

namespace KernelFront.Cache

/-- What a compilation is stored under. -/
structure Key where
  name : String
  args : List Ty
  deriving DecidableEq, Repr

/-- A key in a message. -/
def Key.text (key : Key) : String := "`" ++ key.name ++ "` (" ++ Ty.commaText key.args ++ ")"

/-- The identity of a thread. -/
abbrev ThreadId := Nat

/-- A compiled function as it is shared: two requests got the same one if and only if they were made
by the same run of the compiler. -/
structure Artifact where
  run : Nat
  compiled : Compiled

/-- The outcome of compiling a key. -/
abbrev Entry := Except TypeError Artifact

/-- What is known about a key. -/
inductive Slot where
  /-- It is being compiled by a thread. -/
  | inFlight (owner : ThreadId)
  | done (entry : Entry)

/-- What the threads that use a cache have in common. -/
structure Shared where
  sources : Table String FunctionDef := {}
  slots : Table Key Slot := {}
  /-- The key that each blocked thread waits for. -/
  waiting : Table ThreadId Key := {}
  /-- How many compilations were begun. -/
  compiles : Nat := 0
  /-- The names whose redefinition was already reported. -/
  redefined : List String := []
  deriving Inhabited

namespace Shared

/-- What threads share at first: nothing is registered, compiled or waited for. -/
def empty : Shared := {}

/-- Whether a function of that name was registered. -/
def isRegistered (shared : Shared) (name : String) : Bool := shared.sources.contains name

/-- The thread that compiles a key. -/
def owner? (shared : Shared) (key : Key) : Option ThreadId :=
  match shared.slots.get? key with
  | some (.inFlight owner) => some owner
  | _ => none

/-- Whether `me` is among the first `steps` threads of the chain that begins with `thread` and leads
from a waiting thread to the owner of the key it waits for. -/
def blockedWithin (shared : Shared) (me : ThreadId) : Nat → ThreadId → Bool
  | 0, _ => false
  | steps + 1, thread =>
      if thread = me then true
      else match (shared.waiting.get? thread).bind shared.owner? with
        | some next => blockedWithin shared me steps next
        | none => false

/-- Whether `thread` is `me` or, through a chain of waits, blocked on it. All threads of a chain but
the last are waiting, which bounds its length. -/
def waitsOn (shared : Shared) (thread me : ThreadId) : Bool :=
  shared.blockedWithin me (shared.waiting.size + 1) thread

/-- Let a thread wait for nothing. -/
def stopWaiting (shared : Shared) (me : ThreadId) : Shared :=
  { shared with waiting := shared.waiting.erase me }

/-- Replace the source of a function. -/
def replaceSource (shared : Shared) (func : FunctionDef) : Shared :=
  { shared with sources := shared.sources.insert func.name func }

/-- Forget everything about the keys of a name. -/
def discard (shared : Shared) (name : String) : Shared :=
  { shared with slots := shared.slots.retain fun key => key.name ≠ name }

/-- Count a compilation. -/
def countRun (shared : Shared) : Shared := { shared with compiles := shared.compiles + 1 }

end Shared

/-- What a thread that asks for a key finds. -/
inductive Claim where
  /-- The outcome of a finished compilation. -/
  | ready (entry : Entry)
  /-- The thread owns the key now and has to compile it; its compilation has this number. -/
  | granted (run : Nat)
  /-- To wait would never end. -/
  | cycle
  /-- The thread has to wait for another thread. -/
  | wait

namespace Shared

/-- Look at a key with the intention to compile it. -/
def claim (shared : Shared) (me : ThreadId) (key : Key) : Claim × Shared :=
  match shared.slots.get? key with
  | some (.done entry) => (.ready entry, shared.stopWaiting me)
  | none =>
      let shared := (shared.stopWaiting me).countRun
      (.granted shared.compiles, { shared with slots := shared.slots.insert key (.inFlight me) })
  | some (.inFlight owner) =>
      if shared.waitsOn owner me then (.cycle, shared.stopWaiting me)
      else (.wait, { shared with waiting := shared.waiting.insert me key })

/-- Store the outcome of a key, unless the thread lost the key meanwhile. -/
def settle (shared : Shared) (me : ThreadId) (key : Key) (entry : Entry) : Shared :=
  if shared.owner? key = some me then
    { shared with slots := shared.slots.insert key (.done entry) }
  else shared

/-- Give up a key that the thread still owns. -/
def release (shared : Shared) (me : ThreadId) (key : Key) : Shared :=
  if shared.owner? key = some me then { shared with slots := shared.slots.erase key }
  else shared

end Shared

end KernelFront.Cache
