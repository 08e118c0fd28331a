import KernelFront.Proofs.Cache.Transparency

/-! # What a thread does next

`Advances` turns one step of a thread around: it lists the activities that one can be followed by,
the ways in which a request can end, and what each of them does to the shared state and shows of
itself.
-/

namespace KernelFront.Cache

variable {setting : Inference.Setting}

/-- An activity is followed by another one on behalf of the same callers. -/
inductive ActivityMove (setting : Inference.Setting) (me : ThreadId) (shared : Shared) :
    Activity → Activity → Shared → List Event → Prop where
  | redefine {func : FunctionDef} (hregistered : shared.isRegistered func.name) :
      ActivityMove setting me shared (.replacing func) (.discarding func.name)
        (shared.replaceSource func) []
  | discard {name : String} {discarded : Nat} :
      ActivityMove setting me shared (.discarding name) (.announcing name discarded)
        (shared.discard name) []
  | announce {name : String} {discarded : Nat} :
      ActivityMove setting me shared (.announcing name discarded) (.recording name discarded)
        shared []
  | found {key : Key} (hregistered : shared.isRegistered key.name) :
      ActivityMove setting me shared (.seeking key) (.claiming key) shared []
  | grant {key : Key} (hfree : shared.slots.get? key = none) :
      ActivityMove setting me shared (.claiming key) (.reading ⟨key, shared.compiles + 1⟩)
        { (shared.stopWaiting me).countRun with slots := shared.slots.insert key (.inFlight me) }
        [.claimed key]
  | wait {key : Key} {owner : ThreadId} (howner : shared.owner? key = some owner)
      (hfree : ¬ shared.waitsOn owner me) :
      ActivityMove setting me shared (.claiming key) (.asleep key)
        { shared with waiting := shared.waiting.insert me key } []
  | read {claimed : Claimed} {source : FunctionDef} {message : Message}
      (hsource : shared.sources.get? claimed.key.name = some source) :
      ActivityMove setting me shared (.reading claimed)
        (.running (some claimed) (compilation setting source claimed.key)) shared [.log message]
  | vanished {claimed : Claimed} {entry : Entry} {message : Message} :
      ActivityMove setting me shared (.reading claimed) (.settling claimed entry) shared
        [.log message]
  | opened {name : String} {signature : Signature} {source : FunctionDef}
      (hsource : shared.sources.get? name = some source) :
      ActivityMove setting me shared (.opening name signature) (.counting source signature)
        shared []
  | count {source : FunctionDef} {signature : Signature} {passes : Passes} :
      ActivityMove setting me shared (.counting source signature) (.running none passes)
        shared.countRun [.uncached source.name]
  | report {claimed : Option Claimed} {message : Message} {next : Passes} :
      ActivityMove setting me shared (.running claimed (.report message next))
        (.running claimed next) shared [.log message]
  | finish {claimed : Claimed} {result : Except TypeError Compiled} :
      ActivityMove setting me shared (.running (some claimed) (.done result))
        (.settling claimed (claimed.entry result)) shared []
  | settle {claimed : Claimed} {entry : Entry} :
      ActivityMove setting me shared (.settling claimed entry) (.releasing claimed (some entry))
        (shared.settle me claimed.key entry) []
  | release {claimed : Claimed} {outcome : Option Entry} :
      ActivityMove setting me shared (.releasing claimed outcome) (.notifying claimed outcome)
        (shared.release me claimed.key) []
  | giveUp {claimed : Claimed} :
      ActivityMove setting me shared (.notifying claimed none) .unwinding shared []

/-- The request for a key comes to an end, with a reply or, if another compilation made it, with an
answer to that. -/
inductive Finishes (me : ThreadId) (shared : Shared) : Activity → Reply → Resolution → Prop where
  | unknown {key : Key} (hmissing : ¬ shared.isRegistered key.name) :
      Finishes me shared (.seeking key) (.failed (.unknownFunction key.name)) .host
  | ready {key : Key} {entry : Entry} (hslot : shared.slots.get? key = some (.done entry)) :
      Finishes me shared (.claiming key) (replyTo key (some entry)) (resolution key (some entry)).1
  | cycle {key : Key} {owner : ThreadId} (howner : shared.owner? key = some owner)
      (hwaits : shared.waitsOn owner me) :
      Finishes me shared (.claiming key) (replyTo key none) (resolution key none).1
  | settled {claimed : Claimed} {entry : Entry} :
      Finishes me shared (.notifying claimed (some entry)) (replyTo claimed.key (some entry))
        (resolution claimed.key (some entry)).1

/-- A request without a caller comes to an end. -/
inductive Replies (me : ThreadId) (shared : Shared) : Activity → Reply → Prop where
  | finished {activity : Activity} {reply : Reply} {answer : Resolution}
      (hfinishes : Finishes me shared activity reply answer) : Replies me shared activity reply
  | introduced {func : FunctionDef} : Replies me shared (.replacing func) .registered
  | redefined {name : String} {discarded : Nat} :
      Replies me shared (.recording name discarded) .registered
  | missing {name : String} {signature : Signature} (hmissing : ¬ shared.isRegistered name) :
      Replies me shared (.opening name signature) (.failed (.unknownFunction name))
  | unstored {result : Except TypeError Compiled} {reply : Reply}
      (hfound : ∀ name, reply ≠ .failed (.unknownFunction name)) :
      Replies me shared (.running none (.done result)) reply

/-- What a thread with some callers can do in a step. -/
inductive Advances (setting : Inference.Setting) (me : ThreadId) (shared : Shared)
    (activity : Activity) (callers : List Caller) : Thread → Shared → List Event → Prop where
  | onward {next : Activity} {after : Shared} {events : List Event}
      (hmove : ActivityMove setting me shared activity next after events) :
      Advances setting me shared activity callers (.active next callers) after events
  | nested {claimed : Option Claimed} {callee : String} {args : List Ty}
      {next : Resolution → Passes} (hasks : activity = .running claimed (.ask callee args next)) :
      Advances setting me shared activity callers
        (.active (.seeking ⟨callee, args⟩) (⟨claimed, next⟩ :: callers)) shared []
  | resumed {caller : Caller} {rest : List Caller} {after : Shared} {reply : Reply}
      {answer : Resolution} {events : List Event} (hcallers : callers = caller :: rest)
      (hfinishes : Finishes me shared activity reply answer)
      (hslots : after.slots = shared.slots) (hcompiles : after.compiles = shared.compiles)
      (hlogs : ∀ event ∈ events, ∃ message, event = .log message) :
      Advances setting me shared activity callers
        (.active (.running caller.claimed (caller.next answer)) rest) after events
  | replied {after : Shared} {reply : Reply} {logs : List Event} (hcallers : callers = [])
      (hreplies : Replies me shared activity reply) (hslots : after.slots = shared.slots)
      (hcompiles : after.compiles = shared.compiles)
      (hlogs : ∀ event ∈ logs, ∃ message, event = .log message) :
      Advances setting me shared activity callers .idle after (logs ++ [.replied reply])
  | unwound {thread : Thread} {events : List Event} (hactivity : activity = .unwinding)
      (hfails : thread = .idle ∧ events = [.panicked] ∨ ∃ rest, events = [] ∧
        (thread = .active .unwinding rest ∨
          ∃ claimed, thread = .active (.releasing claimed none) rest)) :
      Advances setting me shared activity callers thread shared events

theorem logs_resolution (key : Key) (outcome : Option Entry) :
    ∀ event ∈ (resolution key outcome).2, ∃ message, event = .log message := by
  intro event hmem
  rcases outcome with _ | _ | _ <;> simp only [resolution, List.mem_singleton] at hmem
  · exact ⟨_, hmem⟩
  · exact ⟨_, hmem⟩
  · cases hmem

/-- The caller of a key goes on, or the requester gets a reply. -/
theorem advances_deliver {me : ThreadId} {shared after : Shared} {activity : Activity} {key : Key}
    {outcome : Option Entry} {callers : List Caller} (hslots : after.slots = shared.slots)
    (hcompiles : after.compiles = shared.compiles)
    (hfinishes : Finishes me shared activity (replyTo key outcome) (resolution key outcome).1) :
    Advances setting me shared activity callers (deliver key outcome callers).1 after
      (deliver key outcome callers).2 := by
  cases callers with
  | nil =>
      have hlogs : ∀ event ∈ ([] : List Event), ∃ message, event = .log message :=
        List.forall_mem_nil _
      exact .replied rfl (.finished hfinishes) hslots hcompiles hlogs
  | cons caller callers =>
      exact .resumed rfl hfinishes hslots hcompiles (logs_resolution key outcome)

theorem advances_deliverUnknown {me : ThreadId} {shared : Shared} {key : Key}
    {callers : List Caller} (hmissing : ¬ shared.isRegistered key.name) :
    Advances setting me shared (.seeking key) callers (deliverUnknown key callers).1 shared
      (deliverUnknown key callers).2 := by
  have hlogs : ∀ event ∈ ([] : List Event), ∃ message, event = .log message :=
    List.forall_mem_nil _
  cases callers with
  | nil => exact .replied rfl (.finished (.unknown hmissing)) rfl rfl hlogs
  | cons caller callers => exact .resumed rfl (.unknown hmissing) rfl rfl hlogs

theorem advances_advancePasses {me : ThreadId} {shared : Shared} {claimed : Option Claimed}
    {callers : List Caller} {passes : Passes}
    (hnested : (Thread.active (.running claimed passes) callers).Nested) :
    Advances setting me shared (.running claimed passes) callers
      (advancePasses claimed callers passes).1 shared
      (advancePasses claimed callers passes).2 := by
  cases passes with
  | report message next => exact .onward .report
  | ask callee args next => exact .nested rfl
  | done result =>
      cases claimed with
      | some claimed => exact .onward .finish
      | none =>
          obtain rfl := hnested.2 trivial
          have hlogs : ∀ event ∈ ([] : List Event), ∃ message, event = .log message :=
            List.forall_mem_nil _
          cases result with
          | ok compiled =>
              exact .replied rfl (.unstored fun name => Reply.noConfusion) rfl rfl hlogs
          | error e =>
              refine .replied rfl (.unstored fun name hsame => ?_) rfl rfl hlogs
              cases hsame

theorem advances_advance {me : ThreadId} {shared : Shared} {callers : List Caller}
    {activity : Activity} {turn : Turn} (hnested : (Thread.active activity callers).Nested)
    (hmoves : advance setting me shared callers activity = some turn) :
    Advances setting me shared activity callers turn.thread turn.shared turn.events := by
  have hlogs : ∀ event ∈ ([] : List Event), ∃ message, event = .log message :=
    List.forall_mem_nil _
  cases activity with
  | replacing func =>
      obtain rfl := hnested.2 trivial
      simp only [advance, Option.some.injEq] at hmoves
      subst turn
      split
      · exact .onward (.redefine ‹_›)
      · refine .replied rfl .introduced ?_ ?_ hlogs <;> rfl
  | discarding name =>
      cases hmoves
      exact .onward .discard
  | announcing name discarded =>
      cases hmoves
      exact .onward .announce
  | recording name discarded =>
      obtain rfl := hnested.2 trivial
      simp only [advance] at hmoves
      split at hmoves <;> cases hmoves
      · exact .replied rfl .redefined rfl rfl hlogs
      · have hlog : ∀ message, ∀ event ∈ [Event.log message], ∃ message, event = .log message :=
          fun message event hmem => ⟨message, List.mem_singleton.mp hmem⟩
        refine .replied rfl .redefined ?_ ?_ (hlog _) <;> rfl
  | seeking key =>
      simp only [advance] at hmoves
      split at hmoves <;> cases hmoves
      · exact .onward (.found ‹_›)
      · exact advances_deliverUnknown ‹_›
  | claiming key =>
      cases lookTurn_of_advance hmoves with
      | grant hfree => exact .onward (.grant hfree)
      | ready hdone => exact advances_deliver rfl rfl (.ready hdone)
      | cycle hslot hwaits =>
          exact advances_deliver rfl rfl (.cycle (Shared.owner?_eq_some.mpr hslot) hwaits)
      | wait hslot hfree => exact .onward (.wait (Shared.owner?_eq_some.mpr hslot) hfree)
  | asleep key => cases hmoves
  | reading claimed =>
      simp only [advance, Option.some.injEq] at hmoves
      subst turn
      cases hsource : shared.sources.get? claimed.key.name with
      | none => exact .onward .vanished
      | some source => exact .onward (.read hsource)
  | opening name signature =>
      obtain rfl := hnested.2 trivial
      simp only [advance] at hmoves
      split at hmoves <;> cases hmoves
      · exact .onward (.opened ‹_›)
      · rename_i hsource
        have hmissing : ¬ shared.isRegistered name := by
          simp [Shared.isRegistered, Table.contains, hsource]
        exact .replied rfl (.missing hmissing) rfl rfl hlogs
  | counting source signature =>
      cases hmoves
      exact .onward .count
  | running claimed passes =>
      cases hmoves
      exact advances_advancePasses hnested
  | settling claimed entry =>
      cases hmoves
      exact .onward .settle
  | releasing claimed outcome =>
      cases hmoves
      exact .onward .release
  | notifying claimed outcome =>
      cases outcome with
      | none =>
          cases hmoves
          exact .onward .giveUp
      | some entry =>
          simp only [advance, Option.some.injEq] at hmoves
          subst turn
          exact advances_deliver rfl rfl .settled
  | unwinding =>
      rcases callers with _ | ⟨⟨_ | claimed, next⟩, callers⟩ <;> cases hmoves
      · exact .unwound rfl (.inl ⟨rfl, rfl⟩)
      · exact .unwound rfl (.inr ⟨callers, rfl, .inl rfl⟩)
      · exact .unwound rfl (.inr ⟨callers, rfl, .inr ⟨claimed, rfl⟩⟩)

/-! ## What waking up does not change -/

theorem World.afterTurn_own (world : World) (me : ThreadId) (turn : Turn) :
    (world.afterTurn me turn).threads me = turn.thread ∨
      (world.afterTurn me turn).threads me = turn.thread.wake := by
  rw [afterTurn_threads]
  simp only [if_true]
  split
  · exact .inr rfl
  · exact .inl rfl

theorem World.afterTurn_self {α : Type} {view : Thread → α}
    (hwake : ∀ thread : Thread, view thread.wake = view thread) (world : World) (me : ThreadId)
    (turn : Turn) : view ((world.afterTurn me turn).threads me) = view turn.thread := by
  obtain hown | hown := world.afterTurn_own me turn <;> rw [hown]
  exact hwake turn.thread

theorem Step.view_of_ne {α : Type} {view : Thread → α}
    (hwake : ∀ thread : Thread, view thread.wake = view thread) {world next : World}
    {me other : ThreadId} {events : List Event} (hstep : Step setting world me events next)
    (hne : other ≠ me) : view (next.threads other) = view (world.threads other) := by
  obtain hsame | hwoken := hstep.thread_of_ne hne
  · rw [hsame]
  · rw [hwoken, hwake]

theorem Reachable.advances {world : World} {me : ThreadId} {activity : Activity}
    {callers : List Caller} {turn : Turn} (hreach : Reachable setting world)
    (hbusy : world.threads me = .active activity callers)
    (hmoves : advance setting me world.shared callers activity = some turn) :
    Advances setting me world.shared activity callers turn.thread turn.shared turn.events :=
  advances_advance (hbusy ▸ hreach.nested me) hmoves

end KernelFront.Cache
