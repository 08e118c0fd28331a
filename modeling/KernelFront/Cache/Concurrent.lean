import KernelFront.Cache.Thread

/-! # Concurrent use of a cache

Any number of threads share a cache. In a step one of them begins a request, advances, wakes up from
its wait (for a reason or without one), or panics in a pass. `Reachable` holds of the worlds that
such steps lead to, and `Run` also records what was seen on the way.
-/

namespace KernelFront.Cache

/-- A cache with all its threads. -/
structure World where
  shared : Shared
  threads : ThreadId → Thread

namespace World

/-- An empty cache that nobody uses. -/
def initial : World := ⟨.empty, fun _ => .idle⟩

/-- The world in which a thread is replaced. -/
def setThread (world : World) (me : ThreadId) (thread : Thread) : World :=
  { world with threads := fun other => if other = me then thread else world.threads other }

/-- The world after a turn of a thread. -/
def afterTurn (world : World) (me : ThreadId) (turn : Turn) : World :=
  let moved := { world with shared := turn.shared }.setThread me turn.thread
  if turn.notifies then { moved with threads := fun other => (moved.threads other).wake } else moved

end World

variable (setting : Inference.Setting)

/-- One step of a thread, with what can be seen of it. -/
inductive Step : World → ThreadId → List Event → World → Prop where
  | begin {world : World} {me : ThreadId} (request : Request) (rest : world.threads me = .idle) :
      Step world me [.begun request] (world.setThread me (.start request))
  | advance {world : World} {me : ThreadId} {activity : Activity} {callers : List Caller}
      {turn : Turn} (busy : world.threads me = .active activity callers)
      (moves : advance setting me world.shared callers activity = some turn) :
      Step world me turn.events (world.afterTurn me turn)
  /-- A waiting thread may wake up at any time. -/
  | wake {world : World} {me : ThreadId} {key : Key} {callers : List Caller}
      (waits : world.threads me = .active (.asleep key) callers) :
      Step world me [] (world.setThread me (.active (.claiming key) callers))
  | panic {world : World} {me : ThreadId} {thread : Thread}
      (fails : (world.threads me).panic? = some thread) :
      Step world me [] (world.setThread me thread)

/-- Steps one after the other, with everything that was seen of each thread. -/
inductive Run (start : World) : List (ThreadId × Event) → World → Prop where
  | nil : Run start [] start
  | step {before after : World} {me : ThreadId} {seen : List (ThreadId × Event)}
      {events : List Event} (past : Run start seen before)
      (next : Step setting before me events after) :
      Run start (seen ++ events.map fun event => (me, event)) after

/-- A world that can come about. -/
def Reachable (world : World) : Prop := ∃ seen, Run setting .initial seen world

end KernelFront.Cache
