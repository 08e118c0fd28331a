import KernelFront.Cache.State

/-! # Threads of a cache

A thread serves one request at a time. To compile a key it claims the key, reads the source, runs
the passes, settles the key and wakes the others. When the passes ask for another registered
function, the compilation is suspended and the thread compiles that function first. Everything that
other threads can observe is one `advance`: what happens between taking a lock and giving it back is
a single step, and the accesses to the sources, to the slots and to the record of redefinitions are
separate steps.
-/

namespace KernelFront.Cache

/-- What is asked of a cache. -/
inductive Request where
  /-- Make a function known under its name. -/
  | register (func : FunctionDef)
  /-- Compile a key, or get what was compiled for it before. -/
  | compile (key : Key)
  /-- Compile for a signature with a declared result type; the result is not stored. -/
  | compileDeclared (name : String) (signature : Signature)

/-- Why a function could not be compiled. -/
inductive CompileError where
  /-- No function of that name was registered. -/
  | unknownFunction (name : String)
  | type (error : TypeError)
  deriving DecidableEq, Repr

/-- The wording of an error. -/
def CompileError.message : CompileError → String
  | .unknownFunction name => "no function named `" ++ name ++ "`"
  | .type error => error.message

/-- The answer to a request. -/
inductive Reply where
  | registered
  | compiled (artifact : Artifact)
  | declared (compiled : Compiled)
  | failed (error : CompileError)

/-- What can be seen of a thread from outside. -/
inductive Event where
  | begun (request : Request)
  | log (message : Message)
  /-- The thread became the owner of a key. -/
  | claimed (key : Key)
  /-- The thread began a compilation that is not stored. -/
  | uncached (name : String)
  | replied (reply : Reply)
  /-- The request was given up. -/
  | panicked

/-- A key that a thread compiles, with the number of the compilation. -/
structure Claimed where
  key : Key
  run : Nat

/-- A running compilation. -/
abbrev Passes := Dialogue (Except TypeError Compiled)

/-- A compilation that waits for the answer to a question. -/
structure Caller where
  /-- The key it is for, if its result is to be stored. -/
  claimed : Option Claimed
  next : Resolution → Passes

/-- What a thread is about to do. -/
inductive Activity where
  /-- Replace a source. -/
  | replacing (func : FunctionDef)
  /-- Discard the slots of a name whose source was replaced. -/
  | discarding (name : String)
  /-- Wake the waiting threads after slots were discarded. -/
  | announcing (name : String) (discarded : Nat)
  /-- Report a redefinition, once for each name. -/
  | recording (name : String) (discarded : Nat)
  /-- Find out whether a function is registered. -/
  | seeking (key : Key)
  /-- Look at a key. -/
  | claiming (key : Key)
  /-- Nothing until another thread wakes it. -/
  | asleep (key : Key)
  /-- Read the source of a key it owns. -/
  | reading (claimed : Claimed)
  /-- Read the source for a signature. -/
  | opening (name : String) (signature : Signature)
  /-- Count a compilation that is not stored. -/
  | counting (source : FunctionDef) (signature : Signature)
  | running (claimed : Option Claimed) (passes : Passes)
  /-- Store an outcome. -/
  | settling (claimed : Claimed) (entry : Entry)
  /-- Give up the key if it still owns it; without an outcome the compilation has panicked. -/
  | releasing (claimed : Claimed) (outcome : Option Entry)
  /-- Wake the waiting threads after a key was settled or given up. -/
  | notifying (claimed : Claimed) (outcome : Option Entry)
  /-- Give up the callers after a panic. -/
  | unwinding

/-- A thread: at rest, or busy with an activity on behalf of suspended compilations. -/
inductive Thread where
  | idle
  | active (activity : Activity) (callers : List Caller)

instance : Inhabited Thread := ⟨.idle⟩

namespace Thread

/-- The thread that begins to serve a request. -/
def start : Request → Thread
  | .register func => .active (.replacing func) []
  | .compile key => .active (.seeking key) []
  | .compileDeclared name signature => .active (.opening name signature) []

/-- A thread that waited looks at its key again. -/
def wake : Thread → Thread
  | .active (.asleep key) callers => .active (.claiming key) callers
  | thread => thread

/-- The activity of a thread in which a pass failed unexpectedly. -/
def panic? : Thread → Option Thread
  | .active (.running (some claimed) _) callers => some (.active (.releasing claimed none) callers)
  | .active (.running none _) callers => some (.active .unwinding callers)
  | _ => none

end Thread

/-- How the caller of a key is to call it, given the outcome of the key, or nothing if the key can
only be finished after its caller. -/
def resolution (key : Key) : Option Entry → Resolution × List Event
  | some (.ok artifact) => (.native artifact.compiled.entryPoint, [])
  | some (.error e) =>
      (.host, [.log ⟨.warn, "[cache] cannot compile `" ++ key.name ++ "` for (" ++
        Ty.commaText key.args ++ "), calling it through the host: " ++ e.message⟩])
  | none =>
      (.host, [.log ⟨.debug, "[cache] recursive call to " ++ key.text ++
        " goes through the host"⟩])

/-- The answer to a request for a key. -/
def replyTo (key : Key) : Option Entry → Reply
  | some (.ok artifact) => .compiled artifact
  | some (.error e) => .failed (.type e)
  | none =>
      .failed (.type ⟨.internal
        ("compiling `" ++ key.name ++ "` from inside its own compilation"), {}⟩)

/-- Hand the outcome of a key to the compilation that asked for it, or else to the requester. -/
def deliver (key : Key) (outcome : Option Entry) : List Caller → Thread × List Event
  | [] => (.idle, [.replied (replyTo key outcome)])
  | caller :: callers =>
      let (answer, events) := resolution key outcome
      (.active (.running caller.claimed (caller.next answer)) callers, events)

/-- Tell whoever asked for a key that no such function is registered. -/
def deliverUnknown (key : Key) : List Caller → Thread × List Event
  | [] => (.idle, [.replied (.failed (.unknownFunction key.name))])
  | caller :: callers => (.active (.running caller.claimed (caller.next .host)) callers, [])

/-- The effect of one step of a thread. -/
structure Turn where
  thread : Thread
  shared : Shared
  events : List Event := []
  /-- The waiting threads are woken. -/
  notifies : Bool := false

variable (setting : Inference.Setting)

/-- One step of a running compilation. -/
def advancePasses (claimed : Option Claimed) (callers : List Caller) : Passes → Thread × List Event
  | .report message next => (.active (.running claimed next) callers, [.log message])
  | .ask callee args next => (.active (.seeking ⟨callee, args⟩) (⟨claimed, next⟩ :: callers), [])
  | .done result =>
      match claimed, result with
      | some claimed, result =>
          (.active (.settling claimed (result.map fun compiled => ⟨claimed.run, compiled⟩)) callers,
            [])
      | none, .ok compiled => (.idle, [.replied (.declared compiled)])
      | none, .error e => (.idle, [.replied (.failed (.type e))])

/-- One step of a thread. A thread that sleeps takes none. -/
def advance (me : ThreadId) (shared : Shared) (callers : List Caller) : Activity → Option Turn
  | .replacing func =>
      let thread : Thread × List Event :=
        if shared.isRegistered func.name then (.active (.discarding func.name) callers, [])
        else (.idle, [.replied .registered])
      some { thread := thread.1, shared := shared.replaceSource func, events := thread.2 }
  | .discarding name =>
      let kept := shared.discard name
      some {
        thread := .active (.announcing name (shared.slots.size - kept.slots.size)) callers
        shared := kept }
  | .announcing name discarded =>
      some { thread := .active (.recording name discarded) callers, shared, notifies := true }
  | .recording name discarded =>
      if name ∈ shared.redefined then
        some { thread := .idle, shared, events := [.replied .registered] }
      else
        some {
          thread := .idle
          shared := { shared with redefined := name :: shared.redefined }
          events := [.log ⟨.warn, "[cache] `" ++ name ++ "` redefined; discarding " ++
            toString discarded ++ " compiled specialization(s)"⟩, .replied .registered] }
  | .seeking key =>
      if shared.isRegistered key.name then
        some { thread := .active (.claiming key) callers, shared }
      else
        let (thread, events) := deliverUnknown key callers
        some { thread, shared, events }
  | .claiming key =>
      match shared.claim me key with
      | (.ready entry, shared) =>
          let (thread, events) := deliver key (some entry) callers
          some { thread, shared, events }
      | (.cycle, shared) =>
          let (thread, events) := deliver key none callers
          some { thread, shared, events }
      | (.granted run, shared) =>
          some { thread := .active (.reading ⟨key, run⟩) callers, shared, events := [.claimed key] }
      | (.wait, shared) => some { thread := .active (.asleep key) callers, shared }
  | .asleep _ => none
  | .reading claimed =>
      let key := claimed.key
      let activity : Activity := match shared.sources.get? key.name with
        | some source => .running (some claimed) (source.compile setting ⟨key.args, none⟩).run
        | none =>
            .settling claimed (.error ⟨.internal
              ("`" ++ key.name ++ "` was unregistered during compilation"), {}⟩)
      some {
        thread := .active activity callers
        shared
        events := [.log ⟨.debug, "[cache] miss for " ++ key.text⟩] }
  | .opening name signature =>
      match shared.sources.get? name with
      | some source => some { thread := .active (.counting source signature) callers, shared }
      | none =>
          some { thread := .idle, shared, events := [.replied (.failed (.unknownFunction name))] }
  | .counting source signature =>
      some {
        thread := .active (.running none (source.compile setting signature).run) callers
        shared := shared.countRun
        events := [.uncached source.name] }
  | .running claimed passes =>
      let (thread, events) := advancePasses claimed callers passes
      some { thread, shared, events }
  | .settling claimed entry =>
      some {
        thread := .active (.releasing claimed (some entry)) callers
        shared := shared.settle me claimed.key entry }
  | .releasing claimed outcome =>
      some {
        thread := .active (.notifying claimed outcome) callers
        shared := shared.release me claimed.key }
  | .notifying claimed outcome =>
      let (thread, events) : Thread × List Event := match outcome with
        | some entry => deliver claimed.key (some entry) callers
        | none => (.active .unwinding callers, [])
      some { thread, shared, events, notifies := true }
  | .unwinding =>
      match callers with
      | [] => some { thread := .idle, shared, events := [.panicked] }
      | ⟨some claimed, _⟩ :: callers =>
          some { thread := .active (.releasing claimed none) callers, shared }
      | ⟨none, _⟩ :: callers => some { thread := .active .unwinding callers, shared }

end KernelFront.Cache
