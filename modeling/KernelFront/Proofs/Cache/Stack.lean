import KernelFront.Cache.Concurrent
import KernelFront.Proofs.Dialogue

/-! # The compilations of a thread

A thread may be in the middle of several compilations, each asked for by the one around it. They
form a stack of frames. `Progress` says everything that one step of a thread can do to its own
stack, to the slots and to the sources; the stacks of all other threads stay as they are.
-/

namespace KernelFront.Cache

/-- How far a thread has come with a compilation. -/
inductive Stage where
  /-- The source is not read yet. -/
  | reading
  | running (passes : Passes)
  /-- The passes wait for the answer to a question. -/
  | suspended (next : Resolution → Passes)
  /-- The outcome is known and was not offered to the slot yet. -/
  | settling (entry : Entry)
  /-- The outcome was offered to the slot, or the slot was given up. -/
  | settled
  /-- A pass failed, and the slot was not given up yet. -/
  | failed

/-- A compilation in the middle of which a thread is. -/
structure Frame where
  claimed : Claimed
  stage : Stage

/-- The compilation that an activity is a part of, if its result is to be stored. -/
def Activity.frame? : Activity → Option Frame
  | .reading claimed => some ⟨claimed, .reading⟩
  | .running (some claimed) passes => some ⟨claimed, .running passes⟩
  | .settling claimed entry => some ⟨claimed, .settling entry⟩
  | .releasing claimed (some _) | .notifying claimed _ => some ⟨claimed, .settled⟩
  | .releasing claimed none => some ⟨claimed, .failed⟩
  | _ => none

/-- A suspended compilation, if its result is to be stored. -/
def Caller.frame? (caller : Caller) : Option Frame :=
  caller.claimed.map fun claimed => ⟨claimed, .suspended caller.next⟩

/-- The stack of a thread, the innermost compilation first. -/
def Thread.frames : Thread → List Frame
  | .idle => []
  | .active activity callers => activity.frame?.toList ++ callers.filterMap Caller.frame?

/-- How many compilations wait for an answer. -/
def Thread.depth : Thread → Nat
  | .idle => 0
  | .active _ callers => callers.length

/-- The key that a thread is about to look at, or sleeps on. -/
def Thread.awaits? : Thread → Option Key
  | .active (.claiming key) _ | .active (.asleep key) _ => some key
  | _ => none

/-- The innermost compilation of a key on a stack. -/
def innermost? (frames : List Frame) (key : Key) : Option Frame :=
  frames.find? fun frame => frame.claimed.key = key

/-- The result of the compilation is what the slot of its key waits for: the thread owns the key and
did not claim it a second time inside this compilation. -/
def World.Holds (world : World) (me : ThreadId) (frame : Frame) : Prop :=
  world.shared.owner? frame.claimed.key = some me ∧
    innermost? (world.threads me).frames frame.claimed.key = some frame

@[simp] theorem Thread.frames_wake (thread : Thread) : thread.wake.frames = thread.frames := by
  unfold Thread.wake
  split <;> rfl

@[simp] theorem Thread.depth_wake (thread : Thread) : thread.wake.depth = thread.depth := by
  unfold Thread.wake
  split <;> rfl

@[simp] theorem Thread.awaits?_wake (thread : Thread) : thread.wake.awaits? = thread.awaits? := by
  unfold Thread.wake
  split <;> rfl

theorem innermost?_cons_self (frame : Frame) (frames : List Frame) :
    innermost? (frame :: frames) frame.claimed.key = some frame := by
  simp [innermost?]

theorem innermost?_cons_of_ne {frame : Frame} {key : Key} (hne : frame.claimed.key ≠ key)
    (frames : List Frame) : innermost? (frame :: frames) key = innermost? frames key := by
  simp [innermost?, hne]

/-! ## Stacks are well nested -/

/-- Only the outermost compilation of a stack can be one whose result is not stored. -/
def Grounded : List Caller → Prop
  | [] => True
  | caller :: callers => (caller.claimed = none → callers = []) ∧ Grounded callers

/-- The activities that serve a request directly, on behalf of no compilation that is stored. -/
def Activity.Outermost : Activity → Prop
  | .replacing _ | .discarding _ | .announcing _ _ | .recording _ _ | .opening _ _ | .counting _ _
  | .running none _ => True
  | _ => False

/-- What serves a request directly has no callers. -/
def Thread.Nested : Thread → Prop
  | .idle => True
  | .active activity callers => Grounded callers ∧ (activity.Outermost → callers = [])

theorem Thread.nested_start (request : Request) : (Thread.start request).Nested := by
  cases request <;> simp [Thread.start, Thread.Nested, Grounded]

theorem Thread.Nested.wake {thread : Thread} (hnested : thread.Nested) : thread.wake.Nested := by
  unfold Thread.wake
  split
  · exact ⟨hnested.1, fun h => h.elim⟩
  · exact hnested

/-- A suspended compilation goes on. -/
theorem nested_resume {caller : Caller} {callers : List Caller} (answer : Resolution)
    (hgrounded : Grounded (caller :: callers)) :
    (Thread.active (.running caller.claimed (caller.next answer)) callers).Nested := by
  obtain ⟨hlast, hrest⟩ := hgrounded
  refine ⟨hrest, ?_⟩
  cases hclaimed : caller.claimed with
  | none => exact fun _ => hlast hclaimed
  | some claimed => exact fun h => h.elim

theorem nested_deliver {key : Key} {outcome : Option Entry} {callers : List Caller}
    (hgrounded : Grounded callers) : (deliver key outcome callers).1.Nested := by
  cases callers with
  | nil => trivial
  | cons caller callers => exact nested_resume _ hgrounded

theorem nested_deliverUnknown {key : Key} {callers : List Caller}
    (hgrounded : Grounded callers) : (deliverUnknown key callers).1.Nested := by
  cases callers with
  | nil => trivial
  | cons caller callers => exact nested_resume _ hgrounded

variable {setting : Inference.Setting}

theorem nested_advancePasses {claimed : Option Claimed} {callers : List Caller} {passes : Passes}
    (hnested : (Thread.active (.running claimed passes) callers).Nested) :
    (advancePasses claimed callers passes).1.Nested := by
  obtain ⟨hgrounded, houtermost⟩ := hnested
  cases claimed with
  | none =>
      obtain rfl := houtermost trivial
      cases passes with
      | done result => cases result <;> trivial
      | report message next => exact ⟨trivial, fun _ => rfl⟩
      | ask callee args next => exact ⟨⟨fun _ => rfl, trivial⟩, fun h => h.elim⟩
  | some claimed =>
      cases passes with
      | done result => exact ⟨hgrounded, fun h => h.elim⟩
      | report message next => exact ⟨hgrounded, fun h => h.elim⟩
      | ask callee args next => exact ⟨⟨nofun, hgrounded⟩, fun h => h.elim⟩

theorem nested_advance {me : ThreadId} {shared : Shared} {callers : List Caller}
    {activity : Activity} {turn : Turn} (hnested : (Thread.active activity callers).Nested)
    (hmoves : advance setting me shared callers activity = some turn) : turn.thread.Nested := by
  obtain ⟨hgrounded, houtermost⟩ := hnested
  cases activity with
  | replacing func =>
      obtain rfl := houtermost trivial
      simp only [advance, Option.some.injEq] at hmoves
      subst turn
      split
      · exact ⟨trivial, fun _ => rfl⟩
      · trivial
  | discarding name =>
      obtain rfl := houtermost trivial
      cases hmoves
      exact ⟨trivial, fun _ => rfl⟩
  | announcing name discarded =>
      obtain rfl := houtermost trivial
      cases hmoves
      exact ⟨trivial, fun _ => rfl⟩
  | recording name discarded =>
      simp only [advance] at hmoves
      split at hmoves <;> cases hmoves <;> trivial
  | seeking key =>
      simp only [advance] at hmoves
      split at hmoves <;> cases hmoves
      · exact ⟨hgrounded, fun h => h.elim⟩
      · exact nested_deliverUnknown hgrounded
  | claiming key =>
      simp only [advance] at hmoves
      split at hmoves <;> cases hmoves
      · exact nested_deliver hgrounded
      · exact nested_deliver hgrounded
      · exact ⟨hgrounded, fun h => h.elim⟩
      · exact ⟨hgrounded, fun h => h.elim⟩
  | asleep key => cases hmoves
  | reading claimed =>
      simp only [advance, Option.some.injEq] at hmoves
      subst turn
      split
      · exact ⟨hgrounded, fun h => h.elim⟩
      · exact ⟨hgrounded, fun h => h.elim⟩
  | opening name signature =>
      obtain rfl := houtermost trivial
      simp only [advance] at hmoves
      split at hmoves <;> cases hmoves
      · exact ⟨trivial, fun _ => rfl⟩
      · trivial
  | counting source signature =>
      obtain rfl := houtermost trivial
      cases hmoves
      exact ⟨trivial, fun _ => rfl⟩
  | running claimed passes =>
      cases hmoves
      exact nested_advancePasses ⟨hgrounded, houtermost⟩
  | settling claimed entry =>
      cases hmoves
      exact ⟨hgrounded, fun h => h.elim⟩
  | releasing claimed outcome =>
      cases hmoves
      exact ⟨hgrounded, fun h => h.elim⟩
  | notifying claimed outcome =>
      cases outcome with
      | some entry =>
          cases hmoves
          exact nested_deliver hgrounded
      | none =>
          cases hmoves
          exact ⟨hgrounded, fun h => h.elim⟩
  | unwinding =>
      rcases callers with _ | ⟨⟨_ | claimed, next⟩, callers⟩
      · cases hmoves
        trivial
      · cases hmoves
        exact ⟨hgrounded.2, fun h => h.elim⟩
      · cases hmoves
        exact ⟨hgrounded.2, fun h => h.elim⟩

theorem Thread.Nested.panic {thread failed : Thread} (hnested : thread.Nested)
    (hfails : thread.panic? = some failed) : failed.Nested := by
  unfold Thread.panic? at hfails
  split at hfails <;> cases hfails
  · exact ⟨hnested.1, fun h => h.elim⟩
  · exact ⟨hnested.1, fun h => h.elim⟩

end KernelFront.Cache
