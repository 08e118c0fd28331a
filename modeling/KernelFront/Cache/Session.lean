import KernelFront.Cache.Thread

/-! # Using a cache alone

A single thread that serves one request after the other never waits: it could only wait for itself,
which is refused. The requests that functions make for each other may go on for ever, so a session
has a bound on the number of steps.
-/

namespace KernelFront.Cache

variable (setting : Inference.Setting)

/-- The thread of a session. -/
def sessionThread : ThreadId := 0

/-- Let a thread take at most `steps` steps until it is at rest, and collect what is seen, the
latest event first. -/
def runThread : Nat → Shared → Thread → List Event → Option (Shared × List Event)
  | _, shared, .idle, seen => some (shared, seen)
  | 0, _, .active _ _, _ => none
  | steps + 1, shared, .active activity callers, seen =>
      match advance setting sessionThread shared callers activity with
      | some turn => runThread steps turn.shared turn.thread (turn.events.reverse ++ seen)
      | none => none

/-- The answer to a request. -/
structure Answer where
  reply : Reply
  messages : List Message

/-- The answer among the events of a request, the latest event first. -/
def Answer.ofEvents? (seen : List Event) : Option Answer := do
  let reply ← seen.findSome? fun
    | .replied reply => some reply
    | _ => none
  let messages := seen.reverse.filterMap fun
    | .log message => some message
    | _ => none
  pure { reply, messages }

/-- Serve a request in at most `steps` steps. -/
def serve (steps : Nat) (shared : Shared) (request : Request) : Option (Shared × Answer) := do
  let (shared, seen) ← runThread setting steps shared (.start request) []
  let answer ← Answer.ofEvents? seen
  pure (shared, answer)

end KernelFront.Cache
