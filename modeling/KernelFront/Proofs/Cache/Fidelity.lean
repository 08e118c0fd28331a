import KernelFront.Proofs.Cache.Freshness
import KernelFront.Proofs.Cache.Reference
import KernelFront.Proofs.Cache.Wakeup

/-! # Threads follow the uncached compilation

While no source changes, every compilation in a thread is at a point that it also reaches without a
cache, as far as its key is acyclic. A slot of such a key keeps what the uncached compilation
returns. The refusal of a wait never interferes: the threads of a cycle of waits compile keys that
ask for each other in a circle.
-/

namespace KernelFront.Cache

/-- What an entry says about its key. -/
def Entry.outcome (entry : Entry) : Except CompileError Compiled :=
  outcomeOf (entry.map Artifact.compiled)

/-- What a reply to a request for a key says about the key. -/
def Reply.outcome? : Reply → Option (Except CompileError Compiled)
  | .compiled artifact => some (.ok artifact.compiled)
  | .failed error => some (.error error)
  | _ => none

/-- The key that a request is for, if the result is to be stored. -/
def Request.root? : Request → Option Key
  | .compile key => some key
  | _ => none

/-- The event is neither the begin nor the end of a request. -/
def Event.Quiet : Event → Prop
  | .begun _ | .replied _ | .panicked => False
  | .log _ | .claimed _ | .uncached _ => True

section Definitions

variable (setting : Inference.Setting) (sources : Table String FunctionDef)

/-- The compilation of a key, where this is acyclic, is at a point that it reaches uncached. -/
def AtPoint (key : Key) (passes : Passes) : Prop :=
  Acyclic setting sources key → ∃ source, sources.get? key.name = some source ∧
    Proceeds setting sources (compilation setting source key) passes

/-- The entry of a key, where this is acyclic, is what the key returns uncached. -/
def Genuine (key : Key) (entry : Entry) : Prop :=
  Acyclic setting sources key → Returns setting sources key entry.outcome

/-- The callers wait for the outcome of a key, each at the question for the next one. The outermost
of them compiles the root, or is a compilation that is not stored if there is no root. -/
inductive Suspended (root : Option Key) : Key → List Caller → Prop where
  | request {key : Key} (hroot : root = some key) : Suspended root key []
  | uncached {key : Key} {next : Resolution → Passes} (hroot : root = none) :
      Suspended root key [⟨none, next⟩]
  | caller {key : Key} {claimed : Claimed} {next : Resolution → Passes} {callers : List Caller}
      (hasks : AtPoint setting sources claimed.key (.ask key.name key.args next))
      (hrest : Suspended root claimed.key callers) :
      Suspended root key (⟨some claimed, next⟩ :: callers)

/-- All that the thread has in progress is at points that are reached uncached. It serves a request
for the root, or one whose result is not stored if there is no root. -/
inductive Follows (root : Option Key) : Thread → Prop where
  | idle : Follows root .idle
  | seeking {key : Key} {callers : List Caller}
      (hcallers : Suspended setting sources root key callers) :
      Follows root (.active (.seeking key) callers)
  | claiming {key : Key} {source : FunctionDef} {callers : List Caller}
      (hsource : sources.get? key.name = some source)
      (hcallers : Suspended setting sources root key callers) :
      Follows root (.active (.claiming key) callers)
  | asleep {key : Key} {source : FunctionDef} {callers : List Caller}
      (hsource : sources.get? key.name = some source)
      (hcallers : Suspended setting sources root key callers) :
      Follows root (.active (.asleep key) callers)
  | reading {claimed : Claimed} {source : FunctionDef} {callers : List Caller}
      (hsource : sources.get? claimed.key.name = some source)
      (hcallers : Suspended setting sources root claimed.key callers) :
      Follows root (.active (.reading claimed) callers)
  | running {claimed : Claimed} {passes : Passes} {callers : List Caller}
      (hpoint : AtPoint setting sources claimed.key passes)
      (hcallers : Suspended setting sources root claimed.key callers) :
      Follows root (.active (.running (some claimed) passes) callers)
  | settling {claimed : Claimed} {entry : Entry} {callers : List Caller}
      (hentry : Genuine setting sources claimed.key entry)
      (hcallers : Suspended setting sources root claimed.key callers) :
      Follows root (.active (.settling claimed entry) callers)
  | releasing {claimed : Claimed} {entry : Entry} {callers : List Caller}
      (hentry : Genuine setting sources claimed.key entry)
      (hcallers : Suspended setting sources root claimed.key callers) :
      Follows root (.active (.releasing claimed (some entry)) callers)
  | notifying {claimed : Claimed} {entry : Entry} {callers : List Caller}
      (hentry : Genuine setting sources claimed.key entry)
      (hcallers : Suspended setting sources root claimed.key callers) :
      Follows root (.active (.notifying claimed (some entry)) callers)
  | opening {name : String} {signature : Signature} (hroot : root = none) :
      Follows root (.active (.opening name signature) [])
  | counting {source : FunctionDef} {signature : Signature} (hroot : root = none) :
      Follows root (.active (.counting source signature) [])
  | uncached {passes : Passes} (hroot : root = none) :
      Follows root (.active (.running none passes) [])
  | releasingFailed {claimed : Claimed} {callers : List Caller} :
      Follows root (.active (.releasing claimed none) callers)
  | notifyingFailed {claimed : Claimed} {callers : List Caller} :
      Follows root (.active (.notifying claimed none) callers)
  | unwinding {callers : List Caller} : Follows root (.active .unwinding callers)

/-- The reply to a request for the root, where this is acyclic, is what the root returns
uncached. -/
def Answers (root : Option Key) (reply : Reply) : Prop :=
  ∀ key, root = some key → Acyclic setting sources key →
    ∃ outcome, reply.outcome? = some outcome ∧ Returns setting sources key outcome

/-- What a step of a thread that serves a request for the root may lead to and show. -/
inductive Continues (root : Option Key) : Thread → List Event → Prop where
  | replied {reply : Reply} (hreply : Answers setting sources root reply) :
      Continues root .idle [.replied reply]
  | panicked : Continues root .idle [.panicked]
  | working {thread : Thread} {events : List Event} (hbusy : thread ≠ .idle)
      (hfollows : Follows setting sources root thread) (hquiet : ∀ event ∈ events, event.Quiet) :
      Continues root thread events

/-- All that threads have in progress, on behalf of the given roots, and all entries are as they
would be without a cache. -/
structure World.Faithful (roots : ThreadId → Option Key) (world : World) : Prop where
  source : world.shared.sources = sources
  done : ∀ {key : Key} {entry : Entry}, world.shared.slots.get? key = some (.done entry) →
    Genuine setting sources key entry
  follows : ∀ thread, Follows setting sources (roots thread) (world.threads thread)

end Definitions

variable {setting : Inference.Setting} {sources : Table String FunctionDef} {root : Option Key}

/-! ## Points of a compilation -/

theorem AtPoint.report {key : Key} {message : Message} {next : Passes}
    (hpoint : AtPoint setting sources key (.report message next)) :
    AtPoint setting sources key next := by
  intro hacyclic
  obtain ⟨source, hsource, hproceeds⟩ := hpoint hacyclic
  exact ⟨source, hsource, hproceeds.report⟩

theorem AtPoint.requests {key other : Key} {next : Resolution → Passes}
    (hpoint : AtPoint setting sources key (.ask other.name other.args next))
    (hacyclic : Acyclic setting sources key) : Requests setting sources key other := by
  obtain ⟨source, hsource, hproceeds⟩ := hpoint hacyclic
  exact ⟨source, next, hsource, hproceeds⟩

/-- An answer that is right if the key asked for is acyclic brings the caller to its next point. -/
theorem AtPoint.answer {key other : Key} {next : Resolution → Passes} {answer : Resolution}
    (hpoint : AtPoint setting sources key (.ask other.name other.args next))
    (hanswer : Acyclic setting sources other →
      ∃ outcome, Returns setting sources other outcome ∧ answer = answerFor outcome) :
    AtPoint setting sources key (next answer) := by
  intro hacyclic
  obtain ⟨source, hsource, hproceeds⟩ := hpoint hacyclic
  obtain ⟨outcome, hreturns, rfl⟩ := hanswer (hacyclic.of_requests (hpoint.requests hacyclic))
  exact ⟨source, hsource, hproceeds.ask hreturns⟩

theorem AtPoint.done {claimed : Claimed} {result : Except TypeError Compiled}
    (hpoint : AtPoint setting sources claimed.key (.done result)) :
    Genuine setting sources claimed.key (claimed.entry result) := by
  intro hacyclic
  obtain ⟨source, hsource, hproceeds⟩ := hpoint hacyclic
  have hreturns := returns_of_registered hsource (hproceeds.concludes (concludes_done.mpr rfl))
  have houtcome : Entry.outcome (claimed.entry result) = outcomeOf result := by
    cases result <;> rfl
  rwa [houtcome]

/-! ## Answers to the callers -/

theorem resolution_some (key : Key) (entry : Entry) :
    (resolution key (some entry)).1 = answerFor entry.outcome := by
  cases entry <;> rfl

theorem outcome?_replyTo (key : Key) (entry : Entry) :
    (replyTo key (some entry)).outcome? = some entry.outcome := by
  cases entry <;> rfl

theorem Suspended.resume {key : Key} {caller : Caller} {callers : List Caller}
    {answer : Resolution} (hcallers : Suspended setting sources root key (caller :: callers))
    (hanswer : Acyclic setting sources key →
      ∃ outcome, Returns setting sources key outcome ∧ answer = answerFor outcome) :
    Follows setting sources root
      (.active (.running caller.claimed (caller.next answer)) callers) := by
  cases hcallers with
  | uncached hroot => exact .uncached hroot
  | caller hasks hrest => exact .running (hasks.answer hanswer) hrest

theorem quiet_resolution (key : Key) (outcome : Option Entry) :
    ∀ event ∈ (resolution key outcome).2, event.Quiet := by
  intro event hmem
  rcases outcome with _ | _ | _ <;> simp only [resolution, List.mem_singleton] at hmem
  · exact hmem ▸ trivial
  · exact hmem ▸ trivial
  · cases hmem

theorem Thread.active_ne_idle {activity : Activity} {callers : List Caller} :
    Thread.active activity callers ≠ .idle := by
  rintro ⟨⟩

/-- A step that shows nothing. -/
theorem Continues.quiet {activity : Activity} {callers : List Caller}
    (hfollows : Follows setting sources root (.active activity callers)) :
    Continues setting sources root (.active activity callers) [] :=
  .working Thread.active_ne_idle hfollows (List.forall_mem_nil _)

theorem Suspended.deliver {key : Key} {outcome : Option Entry} {callers : List Caller}
    (hcallers : Suspended setting sources root key callers)
    (hentry : Acyclic setting sources key →
      ∃ entry, outcome = some entry ∧ Returns setting sources key entry.outcome) :
    Continues setting sources root (deliver key outcome callers).1
      (deliver key outcome callers).2 := by
  cases callers with
  | nil =>
      refine .replied fun asked hroot hacyclic => ?_
      cases hcallers with
      | request hkey =>
          cases Option.some.inj (hkey.symm.trans hroot)
          obtain ⟨entry, rfl, hreturns⟩ := hentry hacyclic
          exact ⟨entry.outcome, outcome?_replyTo key entry, hreturns⟩
  | cons caller callers =>
      refine .working Thread.active_ne_idle (hcallers.resume fun hacyclic => ?_)
        (quiet_resolution key outcome)
      obtain ⟨entry, rfl, hreturns⟩ := hentry hacyclic
      exact ⟨entry.outcome, hreturns, resolution_some key entry⟩

theorem Suspended.deliverUnknown {key : Key} {callers : List Caller}
    (hcallers : Suspended setting sources root key callers)
    (hsource : sources.get? key.name = none) :
    Continues setting sources root (deliverUnknown key callers).1
      (deliverUnknown key callers).2 := by
  cases callers with
  | nil =>
      refine .replied fun asked hroot _ => ?_
      cases hcallers with
      | request hkey =>
          cases Option.some.inj (hkey.symm.trans hroot)
          exact ⟨_, rfl, returns_of_unregistered hsource⟩
  | cons caller callers =>
      exact .quiet (hcallers.resume fun _ => ⟨_, returns_of_unregistered hsource, rfl⟩)

theorem Follows.advancePasses {claimed : Option Claimed} {passes : Passes}
    {callers : List Caller}
    (hfollows : Follows setting sources root (.active (.running claimed passes) callers)) :
    Continues setting sources root (advancePasses claimed callers passes).1
      (advancePasses claimed callers passes).2 := by
  have hlog : ∀ message : Message, ∀ event ∈ [Event.log message], event.Quiet := by
    intro message event hmem
    exact List.mem_singleton.mp hmem ▸ trivial
  cases hfollows with
  | running hpoint hcallers =>
      cases passes with
      | done result => exact .quiet (.settling hpoint.done hcallers)
      | report message next =>
          exact .working Thread.active_ne_idle (.running hpoint.report hcallers) (hlog message)
      | ask name args next =>
          have hasks : AtPoint setting sources _ (.ask (Key.mk name args).name _ next) := hpoint
          exact .quiet (.seeking (.caller hasks hcallers))
  | uncached hroot =>
      have hanswers : ∀ reply, Answers setting sources root reply :=
        fun _ key hkey => absurd (hkey.symm.trans hroot) (Option.some_ne_none key)
      cases passes with
      | done result => cases result <;> exact .replied (hanswers _)
      | report message next => exact .working Thread.active_ne_idle (.uncached hroot) (hlog message)
      | ask name args next => exact .quiet (.seeking (.uncached hroot))

/-! ## No wait is refused for an acyclic key -/

theorem Suspended.transGen {key : Key} {callers : List Caller}
    (hcallers : Suspended setting sources root key callers) {caller : Caller} {claimed : Claimed}
    (hmem : caller ∈ callers) (hclaimed : caller.claimed = some claimed)
    (hacyclic : Acyclic setting sources claimed.key) :
    Relation.TransGen (Requests setting sources) claimed.key key := by
  induction hcallers with
  | request => cases hmem
  | uncached =>
      obtain rfl := List.mem_singleton.mp hmem
      cases hclaimed
  | caller hasks hrest ih =>
      obtain rfl | hmem := List.mem_cons.mp hmem
      · cases hclaimed
        exact .single (hasks.requests hacyclic)
      · -- The caller leads to the key around this one, which is acyclic as well.
        have hpath := ih hmem
        refine hpath.tail (hasks.requests fun other hother => ?_)
        exact hacyclic other (hpath.to_reflTransGen.trans hother)

/-- What the owner of an acyclic key waits for is asked for on the way from that key. -/
theorem World.Faithful.transGen_of_owner {roots : ThreadId → Option Key} {world : World}
    (hfaithful : world.Faithful setting sources roots) (hreach : Reachable setting world)
    {thread : ThreadId} {key awaited : Key} (howner : world.shared.owner? key = some thread)
    (hawaits : (world.threads thread).awaits? = some awaited)
    (hacyclic : Acyclic setting sources key) :
    Relation.TransGen (Requests setting sources) key awaited := by
  obtain ⟨frame, hframe, _⟩ := hreach.owned thread key howner
  have hkey : frame.claimed.key = key := by simpa using List.find?_some hframe
  subst hkey
  have hmem := List.mem_of_find?_eq_some hframe
  have hfollows := hfaithful.follows thread
  have hcaller : ∃ callers, Suspended setting sources (roots thread) awaited callers ∧
      frame ∈ callers.filterMap Caller.frame? := by
    generalize world.threads thread = suspended at *
    cases hfollows <;> cases hawaits <;> exact ⟨_, ‹_›, hmem⟩
  obtain ⟨callers, hcallers, hmem⟩ := hcaller
  obtain ⟨caller, hcaller, hsuspended⟩ := List.mem_filterMap.mp hmem
  obtain ⟨claimed, hclaimed, rfl⟩ := Option.map_eq_some_iff.mp hsuspended
  exact hcallers.transGen hcaller hclaimed hacyclic

theorem World.Faithful.not_waitsOn {roots : ThreadId → Option Key} {world : World}
    (hfaithful : world.Faithful setting sources roots) (hreach : Reachable setting world)
    {me owner : ThreadId} {key : Key} (howner : world.shared.owner? key = some owner)
    (hawaits : (world.threads me).awaits? = some key)
    (hacyclic : Acyclic setting sources key) : ¬ world.shared.waitsOn owner me := by
  intro hwaits
  -- Along the chain every thread owns a key that the first key leads to.
  have hchain : ∀ thread, Relation.ReflTransGen world.shared.BlockedOn owner thread →
      ∃ owned, world.shared.owner? owned = some thread ∧
        Relation.ReflTransGen (Requests setting sources) key owned := by
    intro thread hpath
    induction hpath with
    | refl => exact ⟨key, howner, .refl⟩
    | tail _ hedge ih =>
        obtain ⟨owned, howned, hpath⟩ := ih
        obtain ⟨awaited, hwaiting, hnext⟩ := hedge
        have hfurther := hfaithful.transGen_of_owner hreach howned
          (hreach.attentive.awaits hwaiting) fun other hother => hacyclic other (hpath.trans hother)
        exact ⟨awaited, hnext, hpath.trans hfurther.to_reflTransGen⟩
  obtain ⟨owned, howned, hpath⟩ := hchain me (Shared.blockedWithin.reflTransGen hwaits)
  have hcloses := hfaithful.transGen_of_owner hreach howned hawaits
    fun other hother => hacyclic other (hpath.trans hother)
  exact hacyclic key .refl (hcloses.trans_right hpath)

/-! ## Steps -/

theorem Follows.wake {thread : Thread} (hfollows : Follows setting sources root thread) :
    Follows setting sources root thread.wake := by
  cases hfollows with
  | asleep hsource hcallers => exact .claiming hsource hcallers
  | idle => exact .idle
  | seeking hcallers => exact .seeking hcallers
  | claiming hsource hcallers => exact .claiming hsource hcallers
  | reading hsource hcallers => exact .reading hsource hcallers
  | running hpoint hcallers => exact .running hpoint hcallers
  | settling hentry hcallers => exact .settling hentry hcallers
  | releasing hentry hcallers => exact .releasing hentry hcallers
  | notifying hentry hcallers => exact .notifying hentry hcallers
  | opening hroot => exact .opening hroot
  | counting hroot => exact .counting hroot
  | uncached hroot => exact .uncached hroot
  | releasingFailed => exact .releasingFailed
  | notifyingFailed => exact .notifyingFailed
  | unwinding => exact .unwinding

theorem Follows.panic {thread failed : Thread} (hfails : thread.panic? = some failed) :
    Follows setting sources root failed := by
  unfold Thread.panic? at hfails
  split at hfails <;> cases hfails
  · exact .releasingFailed
  · exact .unwinding

/-- What a thread has in progress stays faithful if the slots are and no wait for an acyclic key is
refused. -/
theorem Follows.advance {me : ThreadId} {shared : Shared} {callers : List Caller}
    {activity : Activity} {turn : Turn} (hsources : shared.sources = sources)
    (hdone : ∀ {key entry}, shared.slots.get? key = some (.done entry) →
      Genuine setting sources key entry)
    (hwaits : ∀ {key owner}, activity = .claiming key → shared.owner? key = some owner →
      Acyclic setting sources key → ¬ shared.waitsOn owner me)
    (hfollows : Follows setting sources root (.active activity callers))
    (hmoves : advance setting me shared callers activity = some turn) :
    Continues setting sources root turn.thread turn.events := by
  cases hfollows with
  | @seeking key _ hcallers =>
      simp only [Cache.advance, Shared.isRegistered, Table.contains, hsources] at hmoves
      cases hsource : sources.get? key.name with
      | none =>
          simp only [hsource, Option.isSome_none, Bool.false_eq_true, if_false,
            Option.some.injEq] at hmoves
          exact hmoves ▸ hcallers.deliverUnknown hsource
      | some source =>
          simp only [hsource, Option.isSome_some, if_true, Option.some.injEq] at hmoves
          exact hmoves ▸ .quiet (.claiming hsource hcallers)
  | @claiming key source _ hsource hcallers =>
      cases lookTurn_of_advance hmoves with
      | grant =>
          refine .working Thread.active_ne_idle (.reading hsource hcallers) fun event hmem => ?_
          exact List.mem_singleton.mp hmem ▸ trivial
      | ready hslot => exact hcallers.deliver fun hacyclic => ⟨_, rfl, hdone hslot hacyclic⟩
      | cycle hslot hcycle =>
          refine hcallers.deliver fun hacyclic => ?_
          exact absurd hcycle (hwaits rfl (Shared.owner?_eq_some.mpr hslot) hacyclic)
      | wait => exact .quiet (.asleep hsource hcallers)
  | asleep => cases hmoves
  | reading hsource hcallers =>
      simp only [Cache.advance, hsources, hsource, Option.some.injEq] at hmoves
      subst turn
      refine .working Thread.active_ne_idle (.running (fun _ => ⟨_, hsource, .refl⟩) hcallers)
        fun event hmem => ?_
      exact List.mem_singleton.mp hmem ▸ trivial
  | running hpoint hcallers =>
      cases hmoves
      exact (Follows.running hpoint hcallers).advancePasses
  | settling hentry hcallers =>
      cases hmoves
      exact .quiet (.releasing hentry hcallers)
  | releasing hentry hcallers =>
      cases hmoves
      exact .quiet (.notifying hentry hcallers)
  | notifying hentry hcallers =>
      cases hmoves
      exact hcallers.deliver fun hacyclic => ⟨_, rfl, hentry hacyclic⟩
  | opening hroot =>
      simp only [Cache.advance] at hmoves
      split at hmoves <;> cases hmoves
      · exact .quiet (.counting hroot)
      · exact .replied fun key hkey => absurd (hkey.symm.trans hroot) (Option.some_ne_none key)
  | counting hroot =>
      cases hmoves
      refine .working Thread.active_ne_idle (.uncached hroot) fun event hmem => ?_
      exact List.mem_singleton.mp hmem ▸ trivial
  | uncached hroot =>
      cases hmoves
      exact (Follows.uncached hroot).advancePasses
  | releasingFailed =>
      cases hmoves
      exact .quiet .notifyingFailed
  | notifyingFailed =>
      cases hmoves
      exact .quiet .unwinding
  | unwinding =>
      rcases callers with _ | ⟨⟨_ | claimed, next⟩, callers⟩ <;> cases hmoves
      · exact .panicked
      · exact .quiet .unwinding
      · exact .quiet .releasingFailed

theorem Thread.wake_ne_idle {thread : Thread} (hbusy : thread ≠ .idle) : thread.wake ≠ .idle := by
  unfold Thread.wake
  split
  · exact Thread.active_ne_idle
  · exact hbusy

theorem Continues.wake {thread : Thread} {events : List Event}
    (hcontinues : Continues setting sources root thread events) :
    Continues setting sources root thread.wake events := by
  cases hcontinues with
  | replied hreply => exact .replied hreply
  | panicked => exact .panicked
  | working hbusy hfollows hquiet =>
      exact .working (Thread.wake_ne_idle hbusy) hfollows.wake hquiet

theorem Continues.follows {thread : Thread} {events : List Event}
    (hcontinues : Continues setting sources root thread events) :
    Follows setting sources root thread := by
  cases hcontinues with
  | replied => exact .idle
  | panicked => exact .idle
  | working _ hfollows _ => exact hfollows

theorem Follows.start {request : Request} (hrequest : ∀ func, request ≠ .register func) :
    Follows setting sources request.root? (.start request) := by
  cases request with
  | register func => exact absurd rfl (hrequest func)
  | compile key => exact .seeking (.request rfl)
  | compileDeclared name signature => exact .opening rfl

/-! ## Steps of a world -/

theorem Step.thread_of_ne {world next : World} {me other : ThreadId} {events : List Event}
    (hstep : Step setting world me events next) (hne : other ≠ me) :
    next.threads other = world.threads other ∨
      next.threads other = (world.threads other).wake := by
  cases hstep with
  | «begin» request rest => exact .inl (if_neg hne)
  | advance busy moves =>
      rw [World.afterTurn_threads]
      simp only [if_neg hne]
      split
      · exact .inr rfl
      · exact .inl rfl
  | wake waits => exact .inl (if_neg hne)
  | panic fails => exact .inl (if_neg hne)

theorem Follows.genuine {thread : Thread} (hfollows : Follows setting sources root thread)
    {claimed : Claimed} {entry : Entry} {rest : List Frame}
    (hframes : thread.frames = ⟨claimed, .settling entry⟩ :: rest) :
    Genuine setting sources claimed.key entry := by
  have hsuspended : ∀ callers : List Caller, ∀ frames,
      callers.filterMap Caller.frame? ≠ ⟨claimed, .settling entry⟩ :: frames := by
    intro callers frames hcallers
    have hmem : ⟨claimed, .settling entry⟩ ∈ callers.filterMap Caller.frame? := by simp [hcallers]
    obtain ⟨caller, _, hframe⟩ := List.mem_filterMap.mp hmem
    obtain ⟨_, _, hframe⟩ := Option.map_eq_some_iff.mp hframe
    cases hframe
  cases hfollows with
  | settling hentry _ =>
      cases hframes
      exact hentry
  | seeking | claiming | asleep | opening | counting | uncached | unwinding =>
      exact absurd hframes (hsuspended _ _)
  | idle | reading | running | releasing | notifying | releasingFailed | notifyingFailed =>
      cases hframes

namespace World.Faithful

variable {roots : ThreadId → Option Key} {world next : World} {me : ThreadId} {events : List Event}

theorem sources_step (hfaithful : world.Faithful setting sources roots)
    (hstep : Step setting world me events next) : next.shared.sources = sources := by
  cases hstep with
  | «begin» request rest => exact hfaithful.source
  | advance busy moves =>
      rw [World.afterTurn_shared]
      obtain hsame | ⟨func, rfl, _⟩ := advance_sources moves
      · exact hsame.trans hfaithful.source
      · have hfollows := hfaithful.follows me
        rw [busy] at hfollows
        cases hfollows
  | wake waits => exact hfaithful.source
  | panic fails => exact hfaithful.source

theorem done_step (hfaithful : world.Faithful setting sources roots)
    (hreach : Reachable setting world) (hstep : Step setting world me events next) {key : Key}
    {entry : Entry} (hdone : next.shared.slots.get? key = some (.done entry)) :
    Genuine setting sources key entry := by
  obtain hold | ⟨claimed, rest, rfl, hstack, _⟩ := (hreach.progress hstep).done hdone
  · exact hfaithful.done hold
  · exact (hfaithful.follows me).genuine hstack

theorem follows_of_ne (hfaithful : world.Faithful setting sources roots)
    (hstep : Step setting world me events next) {other : ThreadId} (hne : other ≠ me) :
    Follows setting sources (roots other) (next.threads other) := by
  obtain hsame | hwoken := hstep.thread_of_ne hne
  · exact hsame ▸ hfaithful.follows other
  · exact hwoken ▸ (hfaithful.follows other).wake

/-- A thread begins to serve a request, or it goes on with the one that it serves. -/
theorem continues (hfaithful : world.Faithful setting sources roots)
    (hreach : Reachable setting world) (hstep : Step setting world me events next) :
    (∃ request, events = [.begun request] ∧ world.threads me = .idle ∧
        next.threads me = .start request) ∨
      world.threads me ≠ .idle ∧
        Continues setting sources (roots me) (next.threads me) events := by
  have hfollows := hfaithful.follows me
  cases hstep with
  | «begin» request rest => exact .inl ⟨request, rfl, rest, if_pos rfl⟩
  | @advance activity callers turn busy moves =>
      refine .inr ⟨by simp [busy], ?_⟩
      rw [busy] at hfollows
      have hcontinues := hfollows.advance hfaithful.source hfaithful.done
        (fun hclaiming howner hacyclic => hfaithful.not_waitsOn hreach howner
          (by rw [busy, hclaiming]; rfl) hacyclic) moves
      rw [World.afterTurn_threads]
      simp only [if_true]
      split
      · exact hcontinues.wake
      · exact hcontinues
  | wake waits =>
      refine .inr ⟨by simp [waits], ?_⟩
      rw [waits] at hfollows
      have hwoken := hfollows.wake
      simp only [World.setThread, if_true]
      exact .quiet hwoken
  | panic fails =>
      refine .inr ⟨?_, ?_⟩
      · intro hidle
        simp [hidle, Thread.panic?] at fails
      · simp only [World.setThread, if_true]
        refine .working ?_ (.panic fails) (List.forall_mem_nil _)
        rintro rfl
        unfold Thread.panic? at fails
        split at fails <;> cases fails

/-- A step keeps everything faithful if the thread that took it is. -/
theorem step {after : ThreadId → Option Key} (hfaithful : world.Faithful setting sources roots)
    (hreach : Reachable setting world) (hstep : Step setting world me events next)
    (hsame : ∀ other, other ≠ me → after other = roots other)
    (hfollows : Follows setting sources (after me) (next.threads me)) :
    next.Faithful setting sources after := by
  refine ⟨hfaithful.sources_step hstep, hfaithful.done_step hreach hstep, fun thread => ?_⟩
  by_cases hme : thread = me
  · exact hme ▸ hfollows
  · exact hsame thread hme ▸ hfaithful.follows_of_ne hstep hme

end World.Faithful

end KernelFront.Cache
