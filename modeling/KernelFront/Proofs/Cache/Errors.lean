import KernelFront.Proofs.Cache.Sharing
import KernelFront.Proofs.InternalErrors

/-! # Errors that a cache hands out

An error that a cache stores or replies with is one that some compilation ends in, or it says that a
source disappeared. A request can also be refused because its thread is in the middle of compiling
the key it asks for, but no thread is when it begins a request. So whatever holds of the errors of
all compilations holds of every error that a requester gets to see.
-/

namespace KernelFront.Cache

variable {setting : Inference.Setting} {good : TypeError → Prop}

/-- The error for a key whose function has no source any more. -/
def disappeared (name : String) : TypeError :=
  ⟨.internal ("`" ++ name ++ "` was unregistered during compilation"), {}⟩

section Confined

variable (good)

/-- Whatever the answers are, the passes end in good errors only. -/
def Passes.Confined (passes : Passes) : Prop := ∀ error, passes.Yields (.error error) → good error

/-- The errors that an activity may come to are good. -/
def Activity.Confined : Activity → Prop
  | .running _ passes => Passes.Confined good passes
  | .settling _ entry | .releasing _ (some entry) | .notifying _ (some entry) => Fails good _ entry
  | _ => True

/-- The errors that a suspended compilation may come to are good. -/
def Caller.Confined (caller : Caller) : Prop := ∀ answer, Passes.Confined good (caller.next answer)

/-- The errors that a thread may come to are good. -/
def Thread.Confined : Thread → Prop
  | .idle => True
  | .active activity callers => activity.Confined good ∧ ∀ caller ∈ callers, caller.Confined good

/-- The errors that are stored and those that threads may come to are good. -/
structure World.Confined (world : World) : Prop where
  done : ∀ {key entry}, world.shared.slots.get? key = some (.done entry) → Fails good _ entry
  threads : ∀ thread, (world.threads thread).Confined good

/-- A reply gives no error but a good one. -/
def Event.Confined (event : Event) : Prop :=
  ∀ error, event = .replied (.failed (.type error)) → good error

/-- A step leads to a thread and shows events that come to good errors only. -/
structure Confines (thread : Thread) (events : List Event) : Prop where
  thread : thread.Confined good
  events : ∀ event ∈ events, event.Confined good

end Confined

theorem Thread.Confined.wake {thread : Thread} (hthread : thread.Confined good) :
    thread.wake.Confined good := by
  unfold Thread.wake
  split
  · exact hthread
  · exact hthread

theorem Thread.Confined.panic {thread failed : Thread} (hthread : thread.Confined good)
    (hfails : thread.panic? = some failed) : failed.Confined good := by
  unfold Thread.panic? at hfails
  split at hfails <;> cases hfails
  · exact ⟨trivial, hthread.2⟩
  · exact ⟨trivial, hthread.2⟩

theorem Thread.confined_start (request : Request) : (Thread.start request).Confined good := by
  cases request <;> exact ⟨trivial, nofun⟩

namespace Confines

variable {callers : List Caller}

/-- A step that shows no reply with an error of a compilation. -/
theorem unfailing {thread : Thread} {events : List Event} (hthread : thread.Confined good)
    (hevents : ∀ error, Event.replied (.failed (.type error)) ∉ events) :
    Confines good thread events := by
  refine ⟨hthread, fun event hmem error herror => ?_⟩
  subst herror
  exact absurd hmem (hevents error)

theorem quiet {thread : Thread} {events : List Event} (hthread : thread.Confined good)
    (hquiet : ∀ event ∈ events, event.Quiet) : Confines good thread events :=
  unfailing hthread fun _ hmem => hquiet _ hmem

/-- A step that shows nothing. -/
theorem silent {thread : Thread} (hthread : thread.Confined good) : Confines good thread [] :=
  quiet hthread (List.forall_mem_nil _)

/-- A step that shows one thing, which is not a reply. -/
theorem shown {thread : Thread} {event : Event} (hthread : thread.Confined good)
    (hquiet : event.Quiet) : Confines good thread [event] :=
  quiet hthread (List.forall_mem_singleton.mpr hquiet)

/-- A request comes to an end without an error. -/
theorem replied {reply : Reply} (hreply : ∀ error, reply ≠ .failed (.type error)) :
    Confines good .idle [.replied reply] := by
  refine unfailing trivial fun error hmem => hreply error ?_
  exact (Event.replied.inj (List.mem_singleton.mp hmem)).symm

/-- A request comes to an end with a good error. -/
theorem failed {error : TypeError} (hgood : good error) :
    Confines good .idle [.replied (.failed (.type error))] := by
  refine ⟨trivial, fun event hmem other herror => ?_⟩
  obtain rfl := List.mem_singleton.mp hmem
  cases herror
  exact hgood

/-- A suspended compilation goes on. -/
theorem resumed {caller : Caller} {events : List Event} (answer : Resolution)
    (hcallers : ∀ other ∈ caller :: callers, other.Confined good)
    (hquiet : ∀ event ∈ events, event.Quiet) :
    Confines good (.active (.running caller.claimed (caller.next answer)) callers) events := by
  obtain ⟨hcaller, hcallers⟩ := List.forall_mem_cons.mp hcallers
  exact quiet ⟨hcaller answer, hcallers⟩ hquiet

theorem deliver {key : Key} {entry : Entry} (hentry : Fails good _ entry)
    (hcallers : ∀ caller ∈ callers, caller.Confined good) :
    Confines good (Cache.deliver key (some entry) callers).1
      (Cache.deliver key (some entry) callers).2 := by
  cases callers with
  | cons caller callers => exact resumed _ hcallers (quiet_resolution key (some entry))
  | nil =>
      cases entry with
      | ok artifact => exact replied (by simp [replyTo])
      | error error => exact failed (hentry error rfl)

theorem deliverUnknown {key : Key} (hcallers : ∀ caller ∈ callers, caller.Confined good) :
    Confines good (Cache.deliverUnknown key callers).1 (Cache.deliverUnknown key callers).2 := by
  cases callers with
  | cons caller callers => exact resumed _ hcallers (List.forall_mem_nil _)
  | nil => exact replied (by simp)

theorem advancePasses {claimed : Option Claimed} {passes : Passes}
    (hpasses : Passes.Confined good passes)
    (hcallers : ∀ caller ∈ callers, caller.Confined good) :
    Confines good (Cache.advancePasses claimed callers passes).1
      (Cache.advancePasses claimed callers passes).2 := by
  cases passes with
  | report message next =>
      exact shown ⟨fun error hyields => hpasses error (.report hyields), hcallers⟩ trivial
  | ask callee args next =>
      refine silent ⟨trivial, List.forall_mem_cons.mpr ⟨fun answer error hyields => ?_, hcallers⟩⟩
      exact hpasses error (.ask answer hyields)
  | done result =>
      have hresult : Fails good _ result := fun error herror => hpasses error (herror ▸ .done _)
      cases claimed with
      | none =>
          cases result with
          | ok compiled => exact replied (by simp)
          | error error => exact failed (hresult error rfl)
      | some claimed =>
          refine silent ⟨fun error herror => ?_, hcallers⟩
          cases result with
          | ok compiled => cases herror
          | error other =>
              cases herror
              exact hresult error rfl

end Confines

/-! ## Steps and runs -/

/-- What compilations can be refused for is good, and so is that a source disappeared. -/
structure Contains (setting : Inference.Setting) (good : TypeError → Prop) : Prop where
  compile : ∀ {func : FunctionDef} {signature : Signature} {error : TypeError},
    Pass.Refuses (func.compile setting signature) error → good error
  disappeared : ∀ name, good (disappeared name)

theorem Contains.advance (hcontains : Contains setting good) {me : ThreadId} {shared : Shared}
    {callers : List Caller} {activity : Activity} {turn : Turn}
    (hdone : ∀ {key entry}, shared.slots.get? key = some (.done entry) → Fails good _ entry)
    (hthread : (Thread.active activity callers).Confined good)
    (hcycle : ∀ {key owner}, callers = [] → activity = .claiming key →
      shared.owner? key = some owner → ¬ shared.waitsOn owner me)
    (hmoves : advance setting me shared callers activity = some turn) :
    Confines good turn.thread turn.events := by
  obtain ⟨hactivity, hcallers⟩ := hthread
  cases activity with
  | replacing func =>
      simp only [Cache.advance, Option.some.injEq] at hmoves
      subst turn
      split
      · exact .silent ⟨trivial, hcallers⟩
      · exact .replied (by simp)
  | recording name discarded =>
      simp only [Cache.advance] at hmoves
      split at hmoves <;> cases hmoves
      · exact .replied (by simp)
      · exact .unfailing trivial (by simp)
  | seeking key =>
      simp only [Cache.advance] at hmoves
      split at hmoves <;> cases hmoves
      · exact .silent ⟨trivial, hcallers⟩
      · exact .deliverUnknown hcallers
  | claiming key =>
      cases lookTurn_of_advance hmoves with
      | grant => exact .shown ⟨trivial, hcallers⟩ trivial
      | ready hslot => exact .deliver (hdone hslot) hcallers
      | cycle hslot hwaits =>
          cases callers with
          | nil => exact absurd hwaits (hcycle rfl rfl (Shared.owner?_eq_some.mpr hslot))
          | cons caller callers => exact .resumed _ hcallers (quiet_resolution key none)
      | wait => exact .silent ⟨trivial, hcallers⟩
  | asleep key => cases hmoves
  | reading claimed =>
      simp only [Cache.advance, Option.some.injEq] at hmoves
      subst turn
      refine .shown ⟨?_, hcallers⟩ trivial
      cases hsource : shared.sources.get? claimed.key.name with
      | some source => exact fun error hyields => hcontains.compile hyields
      | none =>
          rintro _ ⟨⟩
          exact hcontains.disappeared claimed.key.name
  | opening name signature =>
      simp only [Cache.advance] at hmoves
      split at hmoves <;> cases hmoves
      · exact .silent ⟨trivial, hcallers⟩
      · exact .replied (by simp)
  | counting source signature =>
      cases hmoves
      exact .shown ⟨fun error hyields => hcontains.compile hyields, hcallers⟩ trivial
  | running claimed passes =>
      cases hmoves
      exact .advancePasses hactivity hcallers
  | settling claimed entry =>
      cases hmoves
      exact .silent ⟨hactivity, hcallers⟩
  | releasing claimed outcome =>
      cases hmoves
      refine .silent ⟨?_, hcallers⟩
      cases outcome with
      | none => trivial
      | some entry => exact hactivity
  | notifying claimed outcome =>
      cases outcome with
      | none =>
          cases hmoves
          exact .silent ⟨trivial, hcallers⟩
      | some entry =>
          cases hmoves
          exact .deliver hactivity hcallers
  | unwinding =>
      rcases callers with _ | ⟨⟨_ | claimed, next⟩, callers⟩ <;> cases hmoves
      · exact .unfailing trivial (by simp)
      · exact .silent ⟨trivial, (List.forall_mem_cons.mp hcallers).2⟩
      · exact .silent ⟨trivial, (List.forall_mem_cons.mp hcallers).2⟩
  | discarding _ | announcing _ _ =>
      cases hmoves
      exact .silent ⟨trivial, hcallers⟩

/-- The thread that moves is not waited for if it compiles nothing, so its request is not refused as
if it came from inside a compilation of its own. -/
theorem Contains.self (hcontains : Contains setting good) {world next : World} {me : ThreadId}
    {events : List Event} (hreach : Reachable setting world) (hworld : world.Confined good)
    (hstep : Step setting world me events next) : Confines good (next.threads me) events := by
  cases hstep with
  | «begin» request rest =>
      refine .unfailing ?_ (by simp)
      simpa [World.setThread] using Thread.confined_start request
  | @advance activity callers turn busy moves =>
      have hcycle {key : Key} {owner : ThreadId} (hroot : callers = [])
          (hclaiming : activity = .claiming key) (howner : world.shared.owner? key = some owner) :
          ¬ world.shared.waitsOn owner me := by
        refine hreach.not_waitsOn ?_ howner
        rw [busy, hroot, hclaiming]
        rfl
      have hturn := hcontains.advance hworld.done (busy ▸ hworld.threads me) hcycle moves
      refine ⟨?_, hturn.events⟩
      obtain hown | hown := world.afterTurn_own me turn <;> rw [hown]
      · exact hturn.thread
      · exact hturn.thread.wake
  | wake waits =>
      have hthread := (hworld.threads me).wake
      rw [waits, Thread.wake] at hthread
      exact .silent (by simpa [World.setThread] using hthread)
  | panic fails => exact .silent (by simpa [World.setThread] using (hworld.threads me).panic fails)

theorem Contains.step (hcontains : Contains setting good) {world next : World} {me : ThreadId}
    {events : List Event} (hreach : Reachable setting world) (hworld : world.Confined good)
    (hstep : Step setting world me events next) :
    next.Confined good ∧ ∀ event ∈ events, event.Confined good := by
  have hself := hcontains.self hreach hworld hstep
  refine ⟨⟨fun {key entry} hslot => ?_, fun other => ?_⟩, hself.events⟩
  · have hmove := hreach.slotMove hstep key
    rw [hslot] at hmove
    generalize hstored : some (Slot.done entry) = slot at hmove
    cases hmove with
    | same => exact hworld.done hstored.symm
    | settled hthread =>
        cases hstored
        have hactivity := hworld.threads me
        rw [hthread] at hactivity
        exact hactivity.1
    | granted | discarded | released => cases hstored
  · by_cases hme : other = me
    · exact hme ▸ hself.thread
    · obtain hother | hother := hstep.thread_of_ne hme <;> rw [hother]
      · exact hworld.threads other
      · exact (hworld.threads other).wake

theorem Contains.run (hcontains : Contains setting good) {world : World}
    {seen : List (ThreadId × Event)} (hrun : Run setting .initial seen world) :
    world.Confined good ∧ ∀ entry ∈ seen, entry.2.Confined good := by
  induction hrun with
  | nil => exact ⟨⟨nofun, fun _ => trivial⟩, nofun⟩
  | @step before after me seen events past next ih =>
      obtain ⟨hafter, hevents⟩ := hcontains.step ⟨seen, past⟩ ih.1 next
      refine ⟨hafter, List.forall_mem_append.mpr ⟨ih.2, ?_⟩⟩
      exact List.forall_mem_map.mpr hevents

end KernelFront.Cache
