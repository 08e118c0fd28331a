import KernelFront.Proofs.Cache.Advances

/-! # Runs in which no pass fails unexpectedly

`CalmRun` leaves out the panics of passes. In such a run everything that a thread does belongs to
the request it serves, every key it claims gets an outcome, and every compilation that is counted
can be seen: as the claim of a key, or as a compilation that is not stored.
-/

namespace KernelFront.Cache

variable {setting : Inference.Setting}

/-- The thread gives its request up after a failure of a pass. -/
def Thread.failing : Thread → Bool
  | .active (.releasing _ none) _ | .active (.notifying _ none) _ | .active .unwinding _ => true
  | _ => false

/-- Steps one after the other, none of which leaves its thread failing. -/
inductive CalmRun (setting : Inference.Setting) (start : World) :
    List (ThreadId × Event) → World → Prop where
  | nil : CalmRun setting start [] start
  | step {before after : World} {me : ThreadId} {seen : List (ThreadId × Event)}
      {events : List Event} (past : CalmRun setting start seen before)
      (next : Step setting before me events after) (calm : (after.threads me).failing = false) :
      CalmRun setting start (seen ++ events.map fun event => (me, event)) after

theorem CalmRun.run {start world : World} {seen : List (ThreadId × Event)}
    (hrun : CalmRun setting start seen world) : Run setting start seen world := by
  induction hrun with
  | nil => exact .nil
  | step _ next _ ih => exact ih.step next

theorem CalmRun.append {start middle world : World} {seen later : List (ThreadId × Event)}
    (hfirst : CalmRun setting start seen middle) (hsecond : CalmRun setting middle later world) :
    CalmRun setting start (seen ++ later) world := by
  induction hsecond with
  | nil => simpa using hfirst
  | step _ next calm ih => simpa [List.append_assoc] using ih.step next calm

@[simp] theorem Thread.failing_wake (thread : Thread) : thread.wake.failing = thread.failing := by
  unfold wake
  split <;> rfl

/-- No thread fails in a calm run. -/
theorem CalmRun.failing {start world : World} {seen : List (ThreadId × Event)}
    (hrun : CalmRun setting start seen world)
    (hstart : ∀ thread, (start.threads thread).failing = false) (thread : ThreadId) :
    (world.threads thread).failing = false := by
  induction hrun with
  | nil => exact hstart thread
  | @step before after me seen events past next calm ih =>
      by_cases hme : thread = me
      · exact hme ▸ calm
      · rw [next.view_of_ne Thread.failing_wake hme, ih]

/-! ## What a thread works for -/

/-- What a request is for. -/
inductive Purpose where
  | registration
  /-- To get the outcome of a key. -/
  | stored (key : Key)
  /-- To compile something that is not stored. -/
  | unstored
  deriving DecidableEq

/-- What a request is for. -/
def Request.purpose : Request → Purpose
  | .register _ => .registration
  | .compile key => .stored key
  | .compileDeclared _ _ => .unstored

/-- What a compilation is for whose result is to be stored under a key, if there is one. -/
def Purpose.ofClaimed : Option Claimed → Purpose
  | some claimed => .stored claimed.key
  | none => .unstored

/-- What an activity is for that serves a request directly. -/
def Activity.purpose? : Activity → Option Purpose
  | .replacing _ | .discarding _ | .announcing _ _ | .recording _ _ => some .registration
  | .seeking key | .claiming key | .asleep key => some (.stored key)
  | .reading claimed | .settling claimed _ | .releasing claimed _ | .notifying claimed _ =>
      some (.stored claimed.key)
  | .opening _ _ | .counting _ _ => some .unstored
  | .running claimed _ => some (.ofClaimed claimed)
  | .unwinding => none

/-- What the outermost of some compilations is for, each of which was suspended for the next. -/
def outermost (inner : Option Purpose) : List Caller → Option Purpose
  | [] => inner
  | caller :: callers => outermost (some (.ofClaimed caller.claimed)) callers

/-- What a thread works for in the end. -/
def Thread.purpose? : Thread → Option Purpose
  | .idle => none
  | .active activity callers => outermost activity.purpose? callers

/-- One for a compilation that is not stored, zero for every other activity. -/
def Activity.unstoredRuns : Activity → Nat
  | .running claimed _ => claimed.isNone.toNat
  | _ => 0

/-- How many compilations that are not stored wait for an answer. -/
def unstoredCallers (callers : List Caller) : Nat :=
  callers.countP fun caller => caller.claimed.isNone

/-- How many compilations that are not stored a thread is in the middle of. -/
def Thread.unstoredRuns : Thread → Nat
  | .idle => 0
  | .active activity callers => activity.unstoredRuns + unstoredCallers callers

theorem unstoredCallers_cons (caller : Caller) (callers : List Caller) :
    unstoredCallers (caller :: callers) =
      caller.claimed.isNone.toNat + unstoredCallers callers := by
  unfold unstoredCallers
  rw [List.countP_cons, Nat.add_comm]
  cases caller.claimed <;> rfl

@[simp] theorem Thread.purpose?_wake (thread : Thread) :
    thread.wake.purpose? = thread.purpose? := by
  unfold wake
  split <;> rfl

@[simp] theorem Thread.unstoredRuns_wake (thread : Thread) :
    thread.wake.unstoredRuns = thread.unstoredRuns := by
  unfold wake
  split <;> rfl

/-! ## How a request ends -/

/-- The event is a claim of the key. -/
def Event.claims (key : Key) : Event → Bool
  | .claimed other => other = key
  | _ => false

/-- The event is a claim of some key. -/
def Event.isClaim : Event → Bool
  | .claimed .. => true
  | _ => false

/-- The event begins a compilation that is not stored. -/
def Event.isUncached : Event → Bool
  | .uncached _ => true
  | _ => false

/-- What a step of a thread that does not fail leads to: it works on for the same purpose, or it
replies. -/
inductive Works (me : ThreadId) (shared : Shared) (activity : Activity) (callers : List Caller) :
    Thread → List Event → Prop where
  | goesOn {thread : Thread} {events : List Event} (hbusy : thread ≠ .idle)
      (hpurpose : thread.purpose? = (Thread.active activity callers).purpose?)
      (hruns : thread.unstoredRuns =
        (Thread.active activity callers).unstoredRuns + events.countP Event.isUncached)
      (hquiet : ∀ event ∈ events, event.Quiet) : Works me shared activity callers thread events
  | replies {logs : List Event} {reply : Reply} (hcallers : callers = [])
      (hlogs : ∀ event ∈ logs, ∃ message, event = .log message)
      (hreplies : Replies me shared activity reply) :
      Works me shared activity callers .idle (logs ++ [.replied reply])

theorem quiet_of_logs {events : List Event}
    (hlogs : ∀ event ∈ events, ∃ message, event = .log message) :
    ∀ event ∈ events, event.Quiet := by
  intro event hmem
  obtain ⟨message, rfl⟩ := hlogs event hmem
  trivial

theorem countP_of_logs {events : List Event}
    (hlogs : ∀ event ∈ events, ∃ message, event = .log message) {test : Event → Bool}
    (htest : ∀ message, test (.log message) = false) : events.countP test = 0 := by
  refine List.countP_eq_zero.mpr fun event hmem => ?_
  obtain ⟨message, rfl⟩ := hlogs event hmem
  simp [htest]

theorem ActivityMove.purpose? {me : ThreadId} {shared after : Shared} {activity next : Activity}
    {events : List Event} (hmove : ActivityMove setting me shared activity next after events) :
    next.purpose? = activity.purpose? ∨ next = .unwinding := by
  cases hmove with
  | giveUp => exact .inr rfl
  | _ => exact .inl rfl

theorem ActivityMove.unstoredRuns {me : ThreadId} {shared after : Shared}
    {activity next : Activity} {events : List Event}
    (hmove : ActivityMove setting me shared activity next after events) :
    next.unstoredRuns = activity.unstoredRuns + events.countP Event.isUncached := by
  cases hmove <;> rfl

theorem ActivityMove.quiet {me : ThreadId} {shared after : Shared} {activity next : Activity}
    {events : List Event} (hmove : ActivityMove setting me shared activity next after events) :
    ∀ event ∈ events, event.Quiet := by
  intro event hmem
  cases hmove with
  | grant | read | vanished | count | report => exact List.mem_singleton.mp hmem ▸ trivial
  | _ => cases hmem

theorem Finishes.unstoredRuns {me : ThreadId} {shared : Shared} {activity : Activity}
    {reply : Reply} {answer : Resolution} (hfinishes : Finishes me shared activity reply answer) :
    activity.unstoredRuns = 0 := by
  cases hfinishes <;> rfl

theorem Advances.works {me : ThreadId} {shared after : Shared} {activity : Activity}
    {callers : List Caller} {thread : Thread} {events : List Event}
    (hadvances : Advances setting me shared activity callers thread after events)
    (hbefore : (Thread.active activity callers).failing = false)
    (hcalm : thread.failing = false) : Works me shared activity callers thread events := by
  cases hadvances with
  | onward hmove =>
      refine .goesOn Thread.active_ne_idle ?_ ?_ hmove.quiet
      · obtain hpurpose | rfl := hmove.purpose?
        · rw [Thread.purpose?, hpurpose, Thread.purpose?]
        · cases hcalm
      · rw [Thread.unstoredRuns, Thread.unstoredRuns, hmove.unstoredRuns]
        omega
  | nested hasks =>
      subst hasks
      refine .goesOn Thread.active_ne_idle rfl ?_ (List.forall_mem_nil _)
      simp [Thread.unstoredRuns, Activity.unstoredRuns, unstoredCallers_cons]
  | resumed hcallers hfinishes _ _ hlogs =>
      subst hcallers
      refine .goesOn Thread.active_ne_idle rfl ?_ (quiet_of_logs hlogs)
      rw [countP_of_logs hlogs fun _ => rfl, Thread.unstoredRuns, Thread.unstoredRuns,
        hfinishes.unstoredRuns]
      simp [Activity.unstoredRuns, unstoredCallers_cons]
  | replied hcallers hreplies _ _ hlogs => exact .replies hcallers hlogs hreplies
  | unwound hactivity _ =>
      subst hactivity
      cases hbefore

/-- A pass that fails is the only reason for a thread to give its request up. -/
theorem Advances.failing {me : ThreadId} {shared after : Shared} {activity : Activity}
    {callers : List Caller} {thread : Thread} {events : List Event}
    (hadvances : Advances setting me shared activity callers thread after events)
    (hbefore : (Thread.active activity callers).failing = false) : thread.failing = false := by
  cases hadvances with
  | onward hmove =>
      cases hmove with
      | @release claimed outcome =>
          cases outcome with
          | none => cases hbefore
          | some entry => rfl
      | giveUp => cases hbefore
      | _ => rfl
  | nested | resumed | replied => rfl
  | unwound hactivity _ =>
      subst hactivity
      cases hbefore

/-! ## Compilations are counted -/

/-- A step counts the compilations that it shows. -/
theorem Advances.compiles {me : ThreadId} {shared after : Shared} {activity : Activity}
    {callers : List Caller} {thread : Thread} {events : List Event}
    (hadvances : Advances setting me shared activity callers thread after events) :
    after.compiles = shared.compiles +
      (events.countP Event.isClaim + events.countP Event.isUncached) := by
  cases hadvances with
  | onward hmove =>
      cases hmove with
      | settle =>
          unfold Shared.settle
          split <;> rfl
      | release =>
          unfold Shared.release
          split <;> rfl
      | _ => rfl
  | nested => rfl
  | resumed _ _ _ hcompiles hlogs =>
      rw [hcompiles, countP_of_logs hlogs fun _ => rfl, countP_of_logs hlogs fun _ => rfl]
      rfl
  | replied _ _ _ hcompiles hlogs =>
      rw [hcompiles, List.countP_append, List.countP_append, countP_of_logs hlogs fun _ => rfl,
        countP_of_logs hlogs fun _ => rfl]
      rfl
  | unwound _ hfails =>
      obtain ⟨_, rfl⟩ | ⟨_, rfl, _⟩ := hfails <;> rfl

/-- Events are counted alike with and without the thread they were seen of. -/
theorem countP_tagged (test : Event → Bool) (me : ThreadId) (events : List Event) :
    (events.map fun event => (me, event)).countP (fun entry => test entry.2) =
      events.countP test := by
  rw [List.countP_map]
  rfl

/-- The number of compilations that were begun is the number of claims together with the number of
compilations that are not stored. -/
theorem Run.compiles {world : World} {seen : List (ThreadId × Event)}
    (hrun : Run setting .initial seen world) :
    world.shared.compiles = seen.countP (fun entry => entry.2.isClaim) +
      seen.countP (fun entry => entry.2.isUncached) := by
  induction hrun with
  | nil => rfl
  | @step before after me seen events past next ih =>
      have hreach : Reachable setting before := ⟨seen, past⟩
      have hcounted : after.shared.compiles = before.shared.compiles +
          (events.countP Event.isClaim + events.countP Event.isUncached) := by
        cases next with
        | «begin» | wake | panic => rfl
        | advance busy moves =>
            rw [World.afterTurn_shared]
            exact (hreach.advances busy moves).compiles
      rw [hcounted, ih, List.countP_append, List.countP_append, countP_tagged Event.isClaim,
        countP_tagged Event.isUncached]
      omega

end KernelFront.Cache
