import KernelFront.Proofs.Cache.Claims

/-! # One compilation and one result for each key

Whoever asks for a key gets the outcome of its only compilation. To say so of a run, what was seen
of a thread is compared with what the thread is in the middle of: the request that it serves tells
what it works for and how many compilations that are not stored it has begun.
-/

namespace KernelFront.Cache

variable {setting : Inference.Setting}

/-- The number of compilations of the latest request that are not stored, after an event. -/
def Event.tally (runs : Nat) : Event → Nat
  | .begun _ => 0
  | .uncached _ => runs + 1
  | .log _ | .claimed _ | .replied _ | .panicked => runs

/-- The number of compilations that are not stored and that a thread began for its latest
request. -/
def uncachedSince (me : ThreadId) (seen : List (ThreadId × Event)) : Nat :=
  (seen.filter fun entry => entry.1 = me).foldl (fun runs entry => entry.2.tally runs) 0

/-- The name of the function whose source a thread is about to read for a signature. -/
def Thread.opens? : Thread → Option String
  | .active (.opening name _) _ => some name
  | _ => none

/-- A thread is in the middle of a request, for which it has begun a number of compilations that are
not stored. -/
structure Thread.Attends (thread : Thread) (shared : Shared) (request : Request) (runs : Nat) :
    Prop where
  busy : thread ≠ .idle
  purpose : thread.purpose? = some request.purpose
  counted : thread.unstoredRuns = runs
  opening : ∀ {name signature}, request = .compileDeclared name signature →
    thread.opens? = some name ∨ thread.opens? = none ∧ shared.isRegistered name

/-! ## The history of a thread -/

theorem filter_tagged_of_ne {me other : ThreadId} (hne : me ≠ other) (events : List Event) :
    (events.map fun event => (other, event)).filter (fun entry => entry.1 = me) = [] := by
  simp [List.filter_eq_nil_iff, Ne.symm hne]

theorem filter_tagged_self (me : ThreadId) (events : List Event) :
    (events.map fun event => (me, event)).filter (fun entry => entry.1 = me) =
      events.map fun event => (me, event) := by
  simp [List.filter_eq_self]

theorem uncachedSince_append_of_ne {me other : ThreadId} (hne : me ≠ other)
    (seen : List (ThreadId × Event)) (events : List Event) :
    uncachedSince me (seen ++ events.map fun event => (other, event)) = uncachedSince me seen := by
  rw [uncachedSince, List.filter_append, filter_tagged_of_ne hne, List.append_nil, uncachedSince]

theorem uncachedSince_append_self (me : ThreadId) (seen : List (ThreadId × Event))
    (events : List Event) :
    uncachedSince me (seen ++ events.map fun event => (me, event)) =
      events.foldl Event.tally (uncachedSince me seen) := by
  rw [uncachedSince, List.filter_append, filter_tagged_self, List.foldl_append, List.foldl_map,
    uncachedSince]

theorem foldl_tally_of_quiet {events : List Event} (hquiet : ∀ event ∈ events, event.Quiet)
    (runs : Nat) : events.foldl Event.tally runs = runs + events.countP Event.isUncached := by
  induction events generalizing runs with
  | nil => rfl
  | cons event events ih =>
      have hrest : ∀ event ∈ events, event.Quiet := fun other hmem =>
        hquiet other (List.mem_cons_of_mem _ hmem)
      rw [List.foldl_cons, ih hrest, List.countP_cons]
      have hevent := hquiet event List.mem_cons_self
      cases event with
      | begun | replied | panicked => cases hevent
      | log message | claimed key => rfl
      | uncached name =>
          simp only [Event.tally, Event.isUncached, if_true]
          omega

/-! ## A thread attends to its request -/

@[simp] theorem Thread.opens?_wake (thread : Thread) : thread.wake.opens? = thread.opens? := by
  unfold wake
  split <;> rfl

/-- A thread looks for the source at the beginning only, and goes on only if it finds it. -/
theorem Advances.opening {me : ThreadId} {shared after : Shared} {activity : Activity}
    {callers : List Caller} {thread : Thread} {events : List Event}
    (hadvances : Advances setting me shared activity callers thread after events)
    (hbusy : thread ≠ .idle) : thread.opens? = none ∧
      ∀ name, (Thread.active activity callers).opens? = some name → shared.isRegistered name := by
  have habsent (name : String) (hname : none = some name) : shared.isRegistered name := by
    cases hname
  cases hadvances with
  | onward hmove =>
      cases hmove with
      | opened hsource =>
          refine ⟨rfl, fun name hname => ?_⟩
          cases hname
          simp [Shared.isRegistered, Table.contains, hsource]
      | _ => exact ⟨rfl, habsent⟩
  | nested hasks =>
      subst hasks
      exact ⟨rfl, habsent⟩
  | resumed _ hfinishes => cases hfinishes <;> exact ⟨rfl, habsent⟩
  | replied => exact absurd rfl hbusy
  | unwound hactivity hfails =>
      subst hactivity
      obtain ⟨rfl, _⟩ | ⟨rest, _, rfl | ⟨claimed, rfl⟩⟩ := hfails <;> exact ⟨rfl, habsent⟩

namespace Thread.Attends

variable {thread : Thread} {shared after : Shared} {request : Request} {runs : Nat}

theorem start (shared : Shared) (request : Request) :
    (Thread.start request).Attends shared request 0 := by
  constructor
  · cases request <;> exact Thread.active_ne_idle
  · cases request <;> rfl
  · cases request <;> rfl
  · rintro name signature rfl
    exact .inl rfl

theorem wake (hattends : thread.Attends shared request runs) :
    thread.wake.Attends shared request runs := by
  constructor
  · exact Thread.wake_ne_idle hattends.busy
  · rw [Thread.purpose?_wake, hattends.purpose]
  · rw [Thread.unstoredRuns_wake, hattends.counted]
  · intro name signature hrequest
    rw [Thread.opens?_wake]
    exact hattends.opening hrequest

theorem mono (hattends : thread.Attends shared request runs)
    (hle : ∀ {name}, shared.isRegistered name → after.isRegistered name) :
    thread.Attends after request runs := by
  refine ⟨hattends.busy, hattends.purpose, hattends.counted, fun hrequest => ?_⟩
  obtain hopens | ⟨hopens, hregistered⟩ := hattends.opening hrequest
  · exact .inl hopens
  · exact .inr ⟨hopens, hle hregistered⟩

theorem advance {me : ThreadId} {activity : Activity} {callers : List Caller} {next : Thread}
    {events : List Event} (hattends : (Thread.active activity callers).Attends shared request runs)
    (hadvances : Advances setting me shared activity callers next after events)
    (hbusy : next ≠ .idle) (hpurpose : next.purpose? = (Thread.active activity callers).purpose?)
    (hruns : next.unstoredRuns =
      (Thread.active activity callers).unstoredRuns + events.countP Event.isUncached) :
    next.Attends shared request (runs + events.countP Event.isUncached) := by
  obtain ⟨hopens, hfound⟩ := hadvances.opening hbusy
  refine ⟨hbusy, hpurpose.trans hattends.purpose, by rw [hruns, hattends.counted], ?_⟩
  intro name signature hrequest
  obtain hopening | ⟨_, hregistered⟩ := hattends.opening hrequest
  · exact .inr ⟨hopens, hfound name hopening⟩
  · exact .inr ⟨hopens, hregistered⟩

end Thread.Attends

theorem CalmRun.attends {start world : World} {seen : List (ThreadId × Event)}
    (hrun : CalmRun setting start seen world) (hreach : Reachable setting start)
    (hcalm : ∀ thread, (start.threads thread).failing = false) {me : ThreadId} {request : Request}
    (hpending : pending? me seen = some request) :
    (world.threads me).Attends world.shared request (uncachedSince me seen) := by
  induction hrun generalizing request with
  | nil => cases hpending
  | @step before after who seen events past next calm ih =>
      have hbefore := past.run.reachable hreach
      have hregistered : ∀ {name}, before.shared.isRegistered name →
          after.shared.isRegistered name := (hbefore.progress next).isRegistered
      by_cases hme : me = who
      · subst hme
        rw [pending?_append_self] at hpending
        rw [uncachedSince_append_self]
        cases next with
        | «begin» first rest =>
            cases hpending
            simp only [World.setThread, if_true]
            exact .start _ _
        | @advance activity callers turn busy moves =>
            have hfailing : (Thread.active activity callers).failing = false :=
              busy ▸ past.failing hcalm me
            have hadvances := hbefore.advances busy moves
            rw [World.afterTurn_self Thread.failing_wake] at calm
            rw [World.afterTurn_shared] at hregistered ⊢
            have hattends : turn.thread.Attends turn.shared request
                (turn.events.foldl Event.tally (uncachedSince me seen)) := by
              obtain ⟨thread, shared, shown, notifies⟩ := turn
              cases hadvances.works hfailing calm with
              | goesOn hbusy hpurpose hruns hquiet =>
                  rw [foldl_pending_of_quiet hquiet] at hpending
                  rw [foldl_tally_of_quiet hquiet]
                  have hold := ih hpending
                  rw [busy] at hold
                  exact (hold.advance hadvances hbusy hpurpose hruns).mono hregistered
              | replies hcallers hlogs hreplies =>
                  simp [List.foldl_append, Event.pending] at hpending
            rw [World.afterTurn_threads]
            simp only [if_true]
            split
            · exact hattends.wake
            · exact hattends
        | wake waits =>
            have hattends := (ih hpending).wake
            rw [waits] at hattends
            simpa [World.setThread, Thread.wake] using hattends
        | panic fails =>
            unfold Thread.panic? at fails
            split at fails <;> cases fails <;> simp [World.setThread, Thread.failing] at calm
      · rw [pending?_append_of_ne hme] at hpending
        rw [uncachedSince_append_of_ne hme]
        have hattends := (ih hpending).mono hregistered
        obtain hsame | hwoken := next.thread_of_ne hme
        · rwa [hsame]
        · rw [hwoken]
          exact hattends.wake

/-! ## Replies -/

theorem eq_of_append_replied {before logs more : List Event} {reply other : Reply}
    (hlogs : ∀ event ∈ logs, ∃ message, event = .log message)
    (hsame : before ++ .replied reply :: more = logs ++ [.replied other]) :
    before = logs ∧ reply = other := by
  obtain rfl | ⟨rest, last, rfl⟩ := List.eq_nil_or_concat more
  · obtain ⟨hbefore, hreply⟩ := List.append_inj' hsame rfl
    cases hreply
    exact ⟨hbefore, rfl⟩
  · rw [List.concat_eq_append, ← List.cons_append, ← List.append_assoc] at hsame
    obtain ⟨hbefore, _⟩ := List.append_inj' hsame rfl
    obtain ⟨message, hlog⟩ := hlogs (.replied reply) (by simp [← hbefore])
    cases hlog

/-- A thread that replies has no callers, and ends its request with the reply. -/
theorem Reachable.replied {world next : World} {me : ThreadId} {events : List Event} {reply : Reply}
    (hreach : Reachable setting world) (hstep : Step setting world me events next)
    (hbefore : (world.threads me).failing = false) (hcalm : (next.threads me).failing = false)
    (hmem : .replied reply ∈ events) :
    ∃ activity logs other, world.threads me = .active activity [] ∧
      events = logs ++ [.replied other] ∧ (∀ event ∈ logs, ∃ message, event = .log message) ∧
      Replies me world.shared activity other := by
  cases hstep with
  | «begin» request rest => cases List.mem_singleton.mp hmem
  | @advance activity callers turn busy moves =>
      rw [World.afterTurn_self Thread.failing_wake] at hcalm
      have hadvances := hreach.advances busy moves
      rw [busy] at hbefore ⊢
      obtain ⟨thread, shared, shown, notifies⟩ := turn
      cases hadvances.works hbefore hcalm with
      | goesOn _ _ _ hquiet => cases hquiet _ hmem
      | @replies logs other hcallers hlogs hreplies =>
          subst hcallers
          exact ⟨activity, logs, other, rfl, rfl, hlogs, hreplies⟩
  | wake waits => cases hmem
  | panic fails => cases hmem

/-- A reply that was seen is one that a thread without callers gave at some point of the run. -/
theorem CalmRun.replied {start world : World} {seen : List (ThreadId × Event)}
    (hrun : CalmRun setting start seen world) (hreach : Reachable setting start)
    (hcalm : ∀ thread, (start.threads thread).failing = false)
    {before after : List (ThreadId × Event)} {me : ThreadId} {reply : Reply} {request : Request}
    (hsplit : seen = before ++ (me, .replied reply) :: after)
    (hpending : pending? me before = some request) :
    ∃ past later middle activity, CalmRun setting start past middle ∧
      CalmRun setting middle later world ∧ past ++ later = seen ∧
      middle.threads me = .active activity [] ∧ Replies me middle.shared activity reply ∧
      (Thread.active activity []).Attends middle.shared request (uncachedSince me before) := by
  induction hrun generalizing after with
  | nil => simp at hsplit
  | @step middle world who seen events past next calm ih =>
      obtain ⟨rest, hold⟩ | ⟨earlier, hnew, rfl⟩ := eq_append_or_of_append hsplit
      · obtain ⟨first, later, found, activity, hfirst, hlater, rfl, hreply⟩ := ih hold
        exact ⟨first, _, found, activity, hfirst, hlater.step next calm,
          (List.append_assoc _ _ _).symm, hreply⟩
      · obtain ⟨shown, more, rfl, rfl, hmore⟩ := List.map_eq_append_iff.mp hnew
        obtain ⟨event, more, rfl, hevent, _⟩ := List.map_eq_cons_iff.mp hmore
        cases hevent
        obtain ⟨activity, logs, other, hthread, hevents, hlogs, hreplies⟩ :=
          (past.run.reachable hreach).replied next (past.failing hcalm me) calm
            (List.mem_append_right _ List.mem_cons_self)
        obtain ⟨rfl, rfl⟩ := eq_of_append_replied hlogs hevents
        have hquiet := quiet_of_logs hlogs
        rw [pending?_append_self, foldl_pending_of_quiet hquiet] at hpending
        have hattends := past.attends hreach hcalm hpending
        rw [hthread] at hattends
        rw [uncachedSince_append_self, foldl_tally_of_quiet hquiet,
          countP_of_logs hlogs fun _ => rfl]
        have hlast := CalmRun.nil.step next calm
        rw [List.nil_append] at hlast
        exact ⟨seen, _, middle, activity, past, hlast, rfl, hthread, hreplies, hattends⟩

/-- A thread that compiles nothing is not waited for, so its waits close no cycle. -/
theorem Reachable.not_waitsOn {world : World} {me owner : ThreadId} {key : Key}
    (hreach : Reachable setting world) (hframes : (world.threads me).frames = [])
    (howner : world.shared.owner? key = some owner) : ¬ world.shared.waitsOn owner me := by
  intro hwaits
  obtain ⟨owned, howned⟩ := Shared.waitsOn.exists_owned howner hwaits
  exact hreach.not_owner hframes owned howned

theorem CalmRun.isRegistered {start world : World} {seen : List (ThreadId × Event)} {name : String}
    (hrun : CalmRun setting start seen world) (hreach : Reachable setting start)
    (hregistered : start.shared.isRegistered name) : world.shared.isRegistered name := by
  induction hrun with
  | nil => exact hregistered
  | step past next _ ih => exact ((past.run.reachable hreach).progress next).isRegistered ih

/-- The reply to a request for a key of a registered name is the outcome that its slot keeps. -/
theorem Replies.of_stored {world : World} {me : ThreadId} {activity : Activity} {reply : Reply}
    {key : Key} (hreplies : Replies me world.shared activity reply)
    (hthread : world.threads me = .active activity [])
    (hpurpose : activity.purpose? = some (.stored key)) (hreach : Reachable setting world)
    (hkept : world.Kept key) (hregistered : world.shared.isRegistered key.name) :
    ∃ entry, world.shared.slots.get? key = some (.done entry) ∧
      reply = replyTo key (some entry) := by
  cases hreplies with
  | finished hfinishes =>
      cases hfinishes with
      | unknown hmissing =>
          cases hpurpose
          exact absurd hregistered hmissing
      | ready hslot =>
          cases hpurpose
          exact ⟨_, hslot, rfl⟩
      | cycle howner hwaits =>
          exact absurd hwaits (hreach.not_waitsOn (by rw [hthread]; rfl) howner)
      | settled =>
          cases hpurpose
          exact ⟨_, hkept.settled (by rw [hthread]; rfl) rfl, rfl⟩
  | introduced | redefined | missing | unstored => cases hpurpose

/-- The reply to a request that is not stored tells whether a compilation was begun for it. -/
theorem Replies.of_unstored {me : ThreadId} {shared : Shared} {activity : Activity} {reply : Reply}
    {name : String} {signature : Signature} {runs : Nat}
    (hreplies : Replies me shared activity reply)
    (hattends : (Thread.active activity []).Attends shared (.compileDeclared name signature) runs) :
    runs = 0 ∧ reply = .failed (.unknownFunction name) ∧ ¬ shared.isRegistered name ∨
      runs = 1 ∧ (∀ other, reply ≠ .failed (.unknownFunction other)) ∧
        shared.isRegistered name := by
  have hpurpose := hattends.purpose
  have hruns := hattends.counted
  have hopening := hattends.opening rfl
  cases hreplies with
  | finished hfinishes => cases hfinishes <;> cases hpurpose
  | introduced | redefined => cases hpurpose
  | missing hmissing =>
      obtain hopens | ⟨hopens, _⟩ := hopening
      · cases hopens
        exact .inl ⟨hruns.symm, rfl, hmissing⟩
      · cases hopens
  | unstored hfound =>
      obtain hopens | ⟨_, hregistered⟩ := hopening
      · cases hopens
      · exact .inr ⟨hruns.symm, hfound, hregistered⟩

/-- Every other request begins no compilation that is not stored. -/
theorem Replies.runs_eq_zero {me : ThreadId} {shared : Shared} {activity : Activity} {reply : Reply}
    {request : Request} {runs : Nat} (hreplies : Replies me shared activity reply)
    (hattends : (Thread.active activity []).Attends shared request runs)
    (hstored : request.purpose ≠ .unstored) : runs = 0 := by
  have hpurpose := hattends.purpose
  rw [← hattends.counted]
  cases hreplies with
  | finished hfinishes => cases hfinishes <;> rfl
  | introduced | redefined | missing => rfl
  | unstored => exact absurd (Option.some.inj hpurpose).symm hstored

/-! ## Refusals and failures -/

/-- The thread is about to refuse a request for a function that is not registered. -/
def World.Refuses (world : World) (me : ThreadId) : Prop :=
  (∃ key callers, world.threads me = .active (.seeking key) callers ∧
    ¬ world.shared.isRegistered key.name) ∨
  ∃ name signature callers, world.threads me = .active (.opening name signature) callers ∧
    ¬ world.shared.isRegistered name

/-- The key whose failure a thread is about to store, or has stored and is about to announce. -/
def Thread.failed? : Thread → Option Key
  | .active (.settling claimed (.error _)) _ | .active (.releasing claimed (some (.error _))) _
  | .active (.notifying claimed (some (.error _))) _ => some claimed.key
  | _ => none

/-- A refusal has no effect on what the threads share. -/
theorem Step.shared_of_refuses {world next : World} {me : ThreadId} {events : List Event}
    (hstep : Step setting world me events next) (hrefuses : world.Refuses me) :
    next.shared = world.shared := by
  cases hstep with
  | «begin» | wake | panic => rfl
  | advance busy moves =>
      rw [World.afterTurn_shared]
      obtain ⟨key, callers, hthread, hmissing⟩ | ⟨name, signature, callers, hthread, hmissing⟩ :=
        hrefuses
      · cases hthread.symm.trans busy
        simp only [Cache.advance, if_neg hmissing] at moves
        cases moves
        rfl
      · cases hthread.symm.trans busy
        simp only [Cache.advance] at moves
        split at moves <;> cases moves <;> rfl

/-- The failure of a key has no effect on the slots of other keys. -/
theorem Reachable.get?_of_failed {world next : World} {me : ThreadId} {events : List Event}
    {key other : Key} (hreach : Reachable setting world)
    (hstep : Step setting world me events next) (hfailed : (world.threads me).failed? = some key)
    (hne : other ≠ key) :
    next.shared.slots.get? other = world.shared.slots.get? other := by
  have hmove := hreach.slotMove hstep other
  generalize next.shared.slots.get? other = slot at hmove
  generalize world.threads me = thread at hmove hfailed
  have hquiet : thread.awaits? = none ∧ thread.discards? = none := by
    unfold Thread.failed? at hfailed
    split at hfailed <;> first | exact ⟨rfl, rfl⟩ | cases hfailed
  cases hmove with
  | same => rfl
  | granted hawaits => exact nomatch hquiet.1.symm.trans hawaits
  | discarded hdiscards => exact nomatch hquiet.2.symm.trans hdiscards
  | @settled claimed entry callers hthread hkey =>
      subst hthread hkey
      cases entry <;> cases hfailed
      exact absurd rfl hne
  | @released claimed outcome callers hthread hkey =>
      subst hthread hkey
      rcases outcome with _ | _ | _ <;> cases hfailed
      exact absurd rfl hne

/-! ## The theorem -/

/-- In every run without failures of passes, whatever the threads and the order of their steps: if a
name is registered once, then each of its keys is claimed at most once, and all requests for the key
that begin when the name is registered and are answered get the same outcome, the one that the slot
keeps. A refusal changes nothing that is shared, and the failure of a key changes no slot of another
one. The cache counts the claims and the compilations that are not stored; a request for one of
these begins exactly one where the function is registered and none where it is refused, and no
other request begins any. -/
theorem one_compilation_per_key {registered world : World} {early late : List (ThreadId × Event)}
    (hbefore : CalmRun setting .initial early registered)
    (hafter : CalmRun setting registered late world) :
    (∀ key : Key,
      (early ++ late).countP (fun entry => entry.2.registers key.name) ≤ 1 →
        (early ++ late).countP (fun entry => entry.2.claims key) ≤ 1 ∧
        (registered.shared.isRegistered key.name →
          ∀ before after me reply, late = before ++ (me, .replied reply) :: after →
            pending? me before = some (.compile key) →
              ∃ entry, world.shared.slots.get? key = some (.done entry) ∧
                reply = replyTo key (some entry))) ∧
    (∀ me events next, Step setting world me events next →
      (world.Refuses me → next.shared = world.shared) ∧
      ∀ key, (world.threads me).failed? = some key → ∀ other, other ≠ key →
        next.shared.slots.get? other = world.shared.slots.get? other) ∧
    world.shared.compiles = (early ++ late).countP (fun entry => entry.2.isClaim) +
      (early ++ late).countP (fun entry => entry.2.isUncached) ∧
    ∀ before after me reply request, late = before ++ (me, .replied reply) :: after →
      pending? me before = some request →
        (∀ name signature, request = .compileDeclared name signature →
          uncachedSince me before = 0 ∧ reply = .failed (.unknownFunction name) ∧
              ¬ registered.shared.isRegistered name ∨
            uncachedSince me before = 1 ∧ (∀ other, reply ≠ .failed (.unknownFunction other)) ∧
              world.shared.isRegistered name) ∧
        (request.purpose ≠ .unstored → uncachedSince me before = 0) := by
  have hrun := hbefore.append hafter
  have hreach := hbefore.reachable
  refine ⟨fun key hsingle => ⟨?_, fun hregistered => ?_⟩, fun me events next hstep => ⟨?_, ?_⟩,
    hrun.run.compiles, ?_⟩
  · rw [(hrun.kept hsingle).2]
    split <;> omega
  · intro before after me reply hsplit hpending
    obtain ⟨past, later, middle, activity, hpast, hlater, rfl, hthread, hreplies, hattends⟩ :=
      hafter.replied hreach hbefore.calm hsplit hpending
    rw [← List.append_assoc] at hsingle
    have hmiddle := hbefore.append hpast
    have hle : (early ++ past).countP (fun entry => entry.2.registers key.name) ≤ 1 := by
      rw [List.countP_append] at hsingle
      omega
    obtain ⟨entry, hdone, hreply⟩ := hreplies.of_stored hthread hattends.purpose
      hmiddle.reachable (hmiddle.kept hle).1 (hpast.isRegistered hreach hregistered)
    exact ⟨entry, hmiddle.done hlater hsingle hdone, hreply⟩
  · exact hstep.shared_of_refuses
  · intro key hfailed other hne
    exact hrun.reachable.get?_of_failed hstep hfailed hne
  · intro before after me reply request hsplit hpending
    obtain ⟨past, later, middle, activity, hpast, hlater, rfl, hthread, hreplies, hattends⟩ :=
      hafter.replied hreach hbefore.calm hsplit hpending
    refine ⟨?_, hreplies.runs_eq_zero hattends⟩
    rintro name signature rfl
    have hmiddle := (hbefore.append hpast).reachable
    obtain ⟨hruns, hreply, hmissing⟩ | ⟨hruns, hreply, hregistered⟩ :=
      hreplies.of_unstored hattends
    · exact .inl ⟨hruns, hreply, fun h => hmissing (hpast.isRegistered hreach h)⟩
    · exact .inr ⟨hruns, hreply, hlater.isRegistered hmiddle hregistered⟩

theorem World.move?_calm {world next : World} {me : ThreadId} {request : Option Request}
    (hreach : Reachable setting world) (hcalm : (world.threads me).failing = false)
    (hmove : world.move? setting me request = some next) :
    (next.threads me).failing = false := by
  cases request with
  | some request =>
      cases hthread : world.threads me with
      | idle =>
          simp only [move?, hthread, Option.some.injEq] at hmove
          subst hmove
          simp only [World.setThread, if_true]
          cases request <;> rfl
      | active activity callers => simp [move?, hthread] at hmove
  | none =>
      cases hthread : world.threads me with
      | idle => simp [move?, hthread] at hmove
      | active activity callers =>
          simp only [move?, hthread, Option.map_eq_some_iff] at hmove
          obtain ⟨turn, hturn, rfl⟩ := hmove
          rw [World.afterTurn_self Thread.failing_wake]
          exact (hreach.advances hthread hturn).failing (hthread ▸ hcalm)

/-- A schedule has no panics in it, so a run that follows it is calm. -/
theorem World.follow?_calm {world next : World} {schedule : List (ThreadId × Option Request)}
    (hreach : Reachable setting world) (hcalm : ∀ thread, (world.threads thread).failing = false)
    (hfollow : world.follow? setting schedule = some next) :
    CalmRun setting world (world.seen setting schedule) next := by
  induction schedule generalizing world with
  | nil => exact Option.some.inj hfollow ▸ .nil
  | cons head schedule ih =>
      obtain ⟨me, request⟩ := head
      simp only [follow?, Option.bind_eq_some_iff] at hfollow
      obtain ⟨middle, hmove, hrest⟩ := hfollow
      have hstep := move?_shown hmove
      have hfirst := CalmRun.nil.step hstep (move?_calm hreach (hcalm me) hmove)
      rw [List.nil_append] at hfirst
      simp only [seen, hmove]
      exact hfirst.append (ih (hreach.step hstep) (hfirst.failing hcalm) hrest)

/-- A thread asks for a function that another one compiles, waits and gets what that came to. -/
def awaiting : List (ThreadId × Option Request) :=
  [(0, some (.compile redefinedKey))] ++ moves 0 3 ++ [(1, some (.compile redefinedKey))] ++
    moves 1 2 ++ moves 0 10 ++ moves 1 1

/-- Whether the event is a reply. -/
def Event.isReply : Event → Bool
  | .replied _ => true
  | _ => false

/-- Two threads compile a function that was registered once. It is compiled once, and the second
thread gets the outcome that the first one stored. -/
theorem one_compilation_per_key_awaiting :
    ∃ early late before reply entry,
      CalmRun usualSetting .initial early (World.after usualSetting loading) ∧
      CalmRun usualSetting (World.after usualSetting loading) late
        (World.after usualSetting (loading ++ awaiting)) ∧
      (early ++ late).countP (fun entry => entry.2.registers redefinedKey.name) = 1 ∧
      (early ++ late).countP (fun entry => entry.2.claims redefinedKey) ≤ 1 ∧
      late = before ++ [(1, .replied reply)] ∧ pending? 1 before = some (.compile redefinedKey) ∧
      (World.after usualSetting (loading ++ awaiting)).shared.slots.get? redefinedKey =
        some (.done entry) ∧
      reply = replyTo redefinedKey (some entry) := by
  have hearly := World.follow?_calm .initial (fun _ => rfl)
    (@World.follow?_after usualSetting [] loading (by decide +kernel))
  have hlate := World.follow?_calm (World.after_reachable loading) hearly.calm
    (@World.follow?_after usualSetting loading awaiting (by decide +kernel))
  have hregisters : ((World.after usualSetting []).seen usualSetting loading ++
      (World.after usualSetting loading).seen usualSetting awaiting).countP
        (fun entry => entry.2.registers redefinedKey.name) = 1 := by decide +kernel
  have hregistered : (World.after usualSetting loading).shared.isRegistered redefinedKey.name := by
    decide +kernel
  have hlast : ((World.after usualSetting loading).seen usualSetting awaiting).getLast?.any
      (fun entry => entry.1 = 1 && entry.2.isReply) := by decide +kernel
  have hroot : (pending? 1
      ((World.after usualSetting loading).seen usualSetting awaiting).dropLast).bind
        Request.root? = some redefinedKey := by decide +kernel
  have hpending := Request.eq_compile_of_root? hroot
  generalize (World.after usualSetting loading).seen usualSetting awaiting = late at *
  obtain ⟨⟨me, event⟩, hfound, hshown⟩ := Option.any_eq_true _ _ |>.mp hlast
  rw [Bool.and_eq_true, decide_eq_true_eq] at hshown
  obtain ⟨rfl, hreply⟩ := hshown
  cases event with
  | replied reply =>
      have hsplit := (List.dropLast_append_getLast? _ hfound).symm
      obtain ⟨hshared, _⟩ := one_compilation_per_key hearly hlate
      obtain ⟨hclaims, hreplies⟩ := hshared redefinedKey (Nat.le_of_eq hregisters)
      obtain ⟨entry, hdone, hsame⟩ := hreplies hregistered late.dropLast [] 1 reply hsplit hpending
      exact ⟨_, late, late.dropLast, reply, entry, hearly, hlate, hregisters, hclaims, hsplit,
        hpending, hdone, hsame⟩
  | _ => cases hreply

end KernelFront.Cache
