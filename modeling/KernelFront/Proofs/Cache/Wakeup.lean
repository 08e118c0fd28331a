import KernelFront.Proofs.Cache.Schedule
import KernelFront.Proofs.Cache.WaitGraph

/-! # Waiting threads are woken

A thread sleeps on a key that another one compiles. Whoever takes a key away from its owner wakes
all threads soon after. So a thread that sleeps on a key without an owner sleeps only until a thread
that is about to wake it does so, and nothing can keep that thread from doing it.
-/

namespace KernelFront.Cache

variable {setting : Inference.Setting}

/-- The thread waits to be woken. -/
def Thread.Asleep (thread : Thread) (key : Key) : Prop :=
  ∃ callers, thread = .active (.asleep key) callers

/-- After how many steps of its own a thread wakes the others at the latest, if it is on the way to
it. -/
def Thread.wakesIn? : Thread → Option Nat
  | .active (.announcing _ _) _ | .active (.notifying _ _) _ => some 1
  | .active (.releasing _ _) _ => some 2
  | _ => none

theorem Thread.Asleep.awaits? {thread : Thread} {key : Key} (hasleep : thread.Asleep key) :
    thread.awaits? = some key := by
  obtain ⟨callers, rfl⟩ := hasleep
  rfl

theorem Thread.Asleep.wakesIn? {thread : Thread} {key : Key} (hasleep : thread.Asleep key) :
    thread.wakesIn? = none := by
  obtain ⟨callers, rfl⟩ := hasleep
  rfl

theorem Thread.not_asleep_wake (thread : Thread) (key : Key) : ¬ thread.wake.Asleep key := by
  rintro ⟨callers, hthread⟩
  unfold wake at hthread
  split at hthread
  · cases hthread
  · rename_i hawake
    exact hawake key callers hthread

theorem Thread.wakesIn?_wake (thread : Thread) : thread.wake.wakesIn? = thread.wakesIn? := by
  unfold wake
  split <;> rfl

/-! ## What a step does to the waits -/

/-- What one step of a thread, which may be about to look at a key, does to the slots and waits. -/
inductive WaitMove (me : ThreadId) (before : Shared) : Option Key → Turn → Prop where
  | keep {turn : Turn} (hslots : turn.shared.slots = before.slots)
      (hwaiting : turn.shared.waiting = before.waiting)
      (hawake : ∀ key, ¬ turn.thread.Asleep key) : WaitMove me before none turn
  | free {turn : Turn} (hwaiting : turn.shared.waiting = before.waiting)
      (hwakes : turn.thread.wakesIn?.isSome) : WaitMove me before none turn
  | stop {turn : Turn} {key : Key} (hslots : turn.shared.slots = before.slots)
      (hwaiting : turn.shared.waiting = before.waiting.erase me)
      (hthread : turn.thread.awaits? = none) : WaitMove me before (some key) turn
  | grant {turn : Turn} (key : Key)
      (hslots : turn.shared.slots = before.slots.insert key (.inFlight me))
      (hwaiting : turn.shared.waiting = before.waiting.erase me)
      (hthread : turn.thread.awaits? = none) : WaitMove me before (some key) turn
  | wait {turn : Turn} {key : Key} {owner : ThreadId} (howner : before.owner? key = some owner)
      (hfree : ¬ before.waitsOn owner me)
      (hshared : turn.shared = { before with waiting := before.waiting.insert me key })
      (hthread : turn.thread.Asleep key) : WaitMove me before (some key) turn

theorem awaits?_deliver (key : Key) (outcome : Option Entry) (callers : List Caller) :
    (deliver key outcome callers).1.awaits? = none := by
  cases callers <;> rfl

theorem awaits?_deliverUnknown (key : Key) (callers : List Caller) :
    (deliverUnknown key callers).1.awaits? = none := by
  cases callers <;> rfl

theorem Thread.not_asleep_of_awaits? {thread : Thread} (hawaits : thread.awaits? = none)
    (key : Key) : ¬ thread.Asleep key :=
  fun hasleep => nomatch hasleep.awaits?.symm.trans hawaits

theorem Thread.not_asleep_claiming (key : Key) (callers : List Caller) (other : Key) :
    ¬ (Thread.active (.claiming key) callers).Asleep other := by
  rintro ⟨_, hthread⟩
  cases hthread

theorem awaits?_advancePasses (claimed : Option Claimed) (callers : List Caller)
    (passes : Passes) : (advancePasses claimed callers passes).1.awaits? = none := by
  cases passes with
  | done result => cases claimed <;> cases result <;> rfl
  | report message next => rfl
  | ask callee args next => rfl

theorem waitMove_advance {me : ThreadId} {shared : Shared} {callers : List Caller}
    {activity : Activity} {turn : Turn}
    (hmoves : advance setting me shared callers activity = some turn) :
    WaitMove me shared (Thread.active activity callers).awaits? turn := by
  cases activity with
  | replacing func =>
      simp only [advance, Option.some.injEq] at hmoves
      subst turn
      refine .keep rfl rfl fun key => ?_
      split <;> exact Thread.not_asleep_of_awaits? rfl key
  | recording name discarded =>
      simp only [advance] at hmoves
      split at hmoves <;> cases hmoves <;>
        exact .keep rfl rfl (Thread.not_asleep_of_awaits? rfl)
  | seeking key =>
      simp only [advance] at hmoves
      split at hmoves <;> cases hmoves
      · exact .keep rfl rfl (Thread.not_asleep_claiming key callers)
      · exact .keep rfl rfl (Thread.not_asleep_of_awaits? (awaits?_deliverUnknown key callers))
  | claiming key =>
      cases lookTurn_of_advance hmoves with
      | grant => exact .grant key rfl rfl rfl
      | ready => exact .stop rfl rfl (awaits?_deliver key _ callers)
      | cycle => exact .stop rfl rfl (awaits?_deliver key _ callers)
      | wait hslot hfree => exact .wait (Shared.owner?_eq_some.mpr hslot) hfree rfl ⟨callers, rfl⟩
  | asleep key => cases hmoves
  | reading claimed =>
      simp only [advance, Option.some.injEq] at hmoves
      subst turn
      refine .keep rfl rfl fun key => ?_
      dsimp only
      split <;> exact Thread.not_asleep_of_awaits? rfl key
  | opening name signature =>
      simp only [advance] at hmoves
      split at hmoves <;> cases hmoves <;>
        exact .keep rfl rfl (Thread.not_asleep_of_awaits? rfl)
  | running claimed passes =>
      cases hmoves
      exact .keep rfl rfl
        (Thread.not_asleep_of_awaits? (awaits?_advancePasses claimed callers passes))
  | discarding name =>
      cases hmoves
      exact .free rfl rfl
  | settling claimed entry =>
      cases hmoves
      refine .free ?_ rfl
      simp only [Shared.settle]
      split <;> rfl
  | releasing claimed outcome =>
      cases hmoves
      refine .free ?_ rfl
      simp only [Shared.release]
      split <;> rfl
  | notifying claimed outcome =>
      cases outcome with
      | none =>
          cases hmoves
          exact .keep rfl rfl (Thread.not_asleep_of_awaits? rfl)
      | some entry =>
          cases hmoves
          exact .keep rfl rfl
            (Thread.not_asleep_of_awaits? (awaits?_deliver claimed.key (some entry) callers))
  | unwinding =>
      rcases callers with _ | ⟨⟨_ | _, _⟩, _⟩ <;> cases hmoves <;>
        exact .keep rfl rfl (Thread.not_asleep_of_awaits? rfl)
  | announcing _ _ | counting _ _ =>
      cases hmoves
      exact .keep rfl rfl (Thread.not_asleep_of_awaits? rfl)

namespace WaitMove

variable {me : ThreadId} {before : Shared} {awaited : Option Key} {turn : Turn}

theorem waiting_of_ne (hmove : WaitMove me before awaited turn) {thread : ThreadId}
    (hne : thread ≠ me) : turn.shared.waiting.get? thread = before.waiting.get? thread := by
  cases hmove with
  | keep _ hwaiting _ => rw [hwaiting]
  | free hwaiting _ => rw [hwaiting]
  | stop _ hwaiting _ => rw [hwaiting, Table.get?_erase, if_neg hne]
  | grant _ _ hwaiting _ => rw [hwaiting, Table.get?_erase, if_neg hne]
  | wait _ _ hshared _ => rw [hshared, Table.get?_insert, if_neg hne]

/-- A thread that is recorded as waiting after its step begins to wait, or did not look at a key. -/
theorem waiting_self (hmove : WaitMove me before awaited turn) {key : Key}
    (hwaits : turn.shared.waiting.get? me = some key) :
    turn.thread.awaits? = some key ∨ awaited = none ∧ before.waiting.get? me = some key := by
  cases hmove with
  | keep _ hwaiting _ => exact .inr ⟨rfl, by rwa [hwaiting] at hwaits⟩
  | free hwaiting _ => exact .inr ⟨rfl, by rwa [hwaiting] at hwaits⟩
  | stop _ hwaiting _ => simp [hwaiting] at hwaits
  | grant _ _ hwaiting _ => simp [hwaiting] at hwaits
  | wait _ _ hshared hthread =>
      rw [hshared, Table.get?_insert, if_pos rfl] at hwaits
      exact .inl (hthread.awaits?.trans hwaits)

/-- A thread falls asleep on a key that another thread compiles, and is recorded as waiting. -/
theorem asleep (hmove : WaitMove me before awaited turn) {key : Key}
    (hasleep : turn.thread.Asleep key) :
    turn.shared.waiting.get? me = some key ∧ turn.shared.owner? key ≠ none := by
  cases hmove with
  | keep _ _ hawake => exact absurd hasleep (hawake key)
  | free _ hwakes => simp [hasleep.wakesIn?] at hwakes
  | stop _ _ hthread => exact nomatch hasleep.awaits?.symm.trans hthread
  | grant _ _ _ hthread => exact nomatch hasleep.awaits?.symm.trans hthread
  | wait howner _ hshared hthread =>
      cases Option.some.inj (hasleep.awaits?.symm.trans hthread.awaits?)
      have hslots : turn.shared.slots = before.slots := by rw [hshared]
      refine ⟨by rw [hshared, Table.get?_insert, if_pos rfl], ?_⟩
      rw [Shared.owner?_congr hslots, howner]
      exact nofun

/-- Whoever takes a key away from its owner is on the way to wake the others. -/
theorem freed (hmove : WaitMove me before awaited turn) {key : Key}
    (howned : before.owner? key ≠ none) (hfreed : turn.shared.owner? key = none) :
    turn.thread.wakesIn?.isSome := by
  cases hmove with
  | keep hslots _ _ => exact absurd (Shared.owner?_congr hslots key ▸ hfreed) howned
  | free _ hwakes => exact hwakes
  | stop hslots _ _ => exact absurd (Shared.owner?_congr hslots key ▸ hfreed) howned
  | grant granted hslots _ _ =>
      by_cases hkey : key = granted
      · have howner : turn.shared.owner? key = some me := by
          rw [Shared.owner?_eq_some, hslots, Table.get?_insert, if_pos hkey]
        exact nomatch howner.symm.trans hfreed
      · refine absurd ?_ howned
        rw [← hfreed, Shared.owner?, Shared.owner?, hslots, Table.get?_insert, if_neg hkey]
  | wait _ _ hshared _ =>
      have hslots : turn.shared.slots = before.slots := by rw [hshared]
      exact absurd (Shared.owner?_congr hslots key ▸ hfreed) howned

/-- The graph of waits stays acyclic. -/
theorem ranks (hmove : WaitMove me before awaited turn) {rank : ThreadId → Nat}
    (hranks : before.Ranks rank)
    (howner : ∀ {key owner}, turn.shared.owner? key = some owner →
      before.owner? key = some owner ∨ owner = me ∧ awaited = some key) :
    ∃ rank, turn.shared.Ranks rank := by
  have hkept (hnone : awaited = none) (hwaiting : turn.shared.waiting = before.waiting) :
      turn.shared.Ranks rank := by
    refine hranks.mono ?_
    rintro thread owner ⟨key, hwaits, howns⟩
    obtain howns | ⟨_, hawaited⟩ := howner howns
    · exact ⟨key, hwaiting ▸ hwaits, howns⟩
    · exact nomatch hnone.symm.trans hawaited
  cases hmove with
  | keep _ hwaiting _ => exact ⟨rank, hkept rfl hwaiting⟩
  | free hwaiting _ => exact ⟨rank, hkept rfl hwaiting⟩
  | stop _ hwaiting _ =>
      exact ⟨_, hranks.grant hwaiting fun howns => (howner howns).imp_right And.left⟩
  | grant _ _ hwaiting _ =>
      exact ⟨_, hranks.grant hwaiting fun howns => (howner howns).imp_right And.left⟩
  | wait hinFlight hfree hshared _ =>
      rw [hshared]
      exact ⟨_, hranks.wait hinFlight fun hpath => hfree (hranks.waitsOn_iff.mpr hpath)⟩

end WaitMove

/-! ## What holds of all waits -/

/-- Who sleeps is recorded as waiting, who is recorded as waiting is about to look at its key, the
waits have no cycle, and a thread that sleeps on a key without an owner will be woken. -/
structure World.Attentive (world : World) : Prop where
  recorded : ∀ {thread key}, (world.threads thread).Asleep key →
    world.shared.waiting.get? thread = some key
  awaits : ∀ {thread key}, world.shared.waiting.get? thread = some key →
    (world.threads thread).awaits? = some key
  ranks : ∃ rank, world.shared.Ranks rank
  waker : ∀ {thread key}, (world.threads thread).Asleep key → world.shared.owner? key = none →
    ∃ waker, (world.threads waker).wakesIn?.isSome

/-- A thread that changes without effect on the others, and does not fall asleep. -/
theorem World.Attentive.setThread {world : World} (hattentive : world.Attentive) {me : ThreadId}
    {thread : Thread} (hawaits : thread.awaits? = (world.threads me).awaits?)
    (hawake : ∀ key, ¬ thread.Asleep key) (hwakes : (world.threads me).wakesIn? = none) :
    (world.setThread me thread).Attentive := by
  have hasleep {other : ThreadId} {key : Key}
      (hother : ((world.setThread me thread).threads other).Asleep key) :
      (world.threads other).Asleep key := by
    by_cases hme : other = me
    · exact absurd (by simpa [World.setThread, hme] using hother) (hawake key)
    · simpa [World.setThread, hme] using hother
  refine ⟨fun hother => hattentive.recorded (hasleep hother), ?_, hattentive.ranks, ?_⟩
  · intro other key hwaits
    have hother := hattentive.awaits hwaits
    by_cases hme : other = me
    · simpa [World.setThread, hme, hawaits] using hme ▸ hother
    · simpa [World.setThread, hme] using hother
  · intro other key hother hfree
    obtain ⟨waker, hwaker⟩ := hattentive.waker (hasleep hother) hfree
    have hne : waker ≠ me := by
      rintro rfl
      simp [hwakes] at hwaker
    exact ⟨waker, by simpa [World.setThread, hne] using hwaker⟩

theorem Thread.awaits?_panic {thread failed : Thread} (hfails : thread.panic? = some failed) :
    thread.awaits? = none ∧ failed.awaits? = none ∧ thread.wakesIn? = none := by
  unfold panic? at hfails
  split at hfails <;> cases hfails <;> exact ⟨rfl, rfl, rfl⟩

/-- A thread that is on the way to wake the others gets nearer to it with every step of its own, or
does it. -/
theorem wakesIn?_advance {me : ThreadId} {shared : Shared} {callers : List Caller}
    {activity : Activity} {turn : Turn} {steps : Nat}
    (hmoves : advance setting me shared callers activity = some turn)
    (hwakes : (Thread.active activity callers).wakesIn? = some steps) :
    turn.notifies ∨ ∃ fewer, fewer < steps ∧ turn.thread.wakesIn? = some fewer := by
  cases activity with
  | announcing name discarded =>
      cases hmoves
      exact .inl rfl
  | releasing claimed outcome =>
      cases hmoves
      cases hwakes
      exact .inr ⟨1, Nat.one_lt_two, rfl⟩
  | notifying claimed outcome =>
      cases outcome with
      | none =>
          cases hmoves
          exact .inl rfl
      | some entry =>
          cases hmoves
          exact .inl rfl
  | _ => cases hwakes

/-- After a turn with a notification nobody sleeps. Otherwise the other threads did not change. -/
theorem World.asleep_afterTurn {world : World} {me thread : ThreadId} {turn : Turn} {key : Key}
    (hasleep : ((world.afterTurn me turn).threads thread).Asleep key) :
    turn.notifies = false ∧
      (if thread = me then turn.thread else world.threads thread).Asleep key := by
  rw [World.afterTurn_threads] at hasleep
  by_cases hnotifies : turn.notifies
  · exact absurd (by simpa only [hnotifies, if_true] using hasleep) (Thread.not_asleep_wake _ key)
  · simp only [hnotifies] at hasleep
    exact ⟨by simpa using hnotifies, hasleep⟩

theorem World.awaits?_afterTurn {world : World} {me : ThreadId} {turn : Turn}
    (thread : ThreadId) : ((world.afterTurn me turn).threads thread).awaits? =
      (if thread = me then turn.thread else world.threads thread).awaits? := by
  rw [World.afterTurn_threads]
  dsimp only
  split
  · exact Thread.awaits?_wake _
  · rfl

theorem World.wakesIn?_afterTurn {world : World} {me : ThreadId} {turn : Turn}
    (thread : ThreadId) : ((world.afterTurn me turn).threads thread).wakesIn? =
      (if thread = me then turn.thread else world.threads thread).wakesIn? := by
  rw [World.afterTurn_threads]
  dsimp only
  split
  · exact Thread.wakesIn?_wake _
  · rfl

theorem World.Attentive.afterTurn {world : World} (hattentive : world.Attentive) {me : ThreadId}
    {activity : Activity} {callers : List Caller} {turn : Turn}
    (hbusy : world.threads me = .active activity callers)
    (hmoves : advance setting me world.shared callers activity = some turn)
    (howner : ∀ {key owner}, turn.shared.owner? key = some owner →
      world.shared.owner? key = some owner ∨
        owner = me ∧ (Thread.active activity callers).awaits? = some key) :
    (world.afterTurn me turn).Attentive := by
  have hmove := waitMove_advance hmoves
  constructor
  · intro thread key hasleep
    obtain ⟨_, hasleep⟩ := World.asleep_afterTurn hasleep
    rw [World.afterTurn_shared]
    by_cases hme : thread = me
    · rw [if_pos hme] at hasleep
      exact hme ▸ (hmove.asleep hasleep).1
    · rw [if_neg hme] at hasleep
      exact (hmove.waiting_of_ne hme).trans (hattentive.recorded hasleep)
  · intro thread key hwaits
    rw [World.afterTurn_shared] at hwaits
    rw [World.awaits?_afterTurn]
    by_cases hme : thread = me
    · rw [if_pos hme]
      obtain hawaits | ⟨hnone, hold⟩ := hmove.waiting_self (hme ▸ hwaits)
      · exact hawaits
      · have hold := hattentive.awaits hold
        rw [hbusy] at hold
        exact nomatch hnone.symm.trans hold
    · rw [if_neg hme]
      exact hattentive.awaits ((hmove.waiting_of_ne hme).symm.trans hwaits)
  · rw [World.afterTurn_shared]
    obtain ⟨rank, hranks⟩ := hattentive.ranks
    exact hmove.ranks hranks howner
  · intro thread key hasleep hfree
    obtain ⟨hquiet, hasleep⟩ := World.asleep_afterTurn hasleep
    rw [World.afterTurn_shared] at hfree
    by_cases hme : thread = me
    · rw [if_pos hme] at hasleep
      exact absurd hfree (hmove.asleep hasleep).2
    · rw [if_neg hme] at hasleep
      -- Either the key was free before, and its waker got on, or this step freed it.
      by_cases howned : world.shared.owner? key = none
      · obtain ⟨waker, hwaker⟩ := hattentive.waker hasleep howned
        refine ⟨waker, ?_⟩
        rw [World.wakesIn?_afterTurn]
        by_cases hself : waker = me
        · subst hself
          rw [hbusy] at hwaker
          obtain ⟨steps, hsteps⟩ := Option.isSome_iff_exists.mp hwaker
          obtain hnotifies | ⟨fewer, _, hfewer⟩ := wakesIn?_advance hmoves hsteps
          · exact nomatch hnotifies.symm.trans hquiet
          · simp [hfewer]
        · rwa [if_neg hself]
      · refine ⟨me, ?_⟩
        rw [World.wakesIn?_afterTurn, if_pos rfl]
        exact hmove.freed howned hfree

theorem Reachable.attentive {world : World} (hreach : Reachable setting world) :
    world.Attentive := by
  refine hreach.invariant World.Attentive ⟨?_, nofun, ⟨fun _ => 0, ?_⟩, ?_⟩ ?_
  · rintro thread key ⟨callers, hthread⟩
    cases hthread
  · rintro thread owner ⟨key, hwaits, _⟩
    cases hwaits
  · rintro thread key ⟨callers, hthread⟩
    cases hthread
  · intro before after me events hbefore hattentive hstep
    have hprogress := hbefore.progress hstep
    cases hstep with
    | «begin» request rest =>
        have hawaits : (Thread.start request).awaits? = none := by cases request <;> rfl
        exact hattentive.setThread (by rw [hawaits, rest]; rfl)
          (Thread.not_asleep_of_awaits? hawaits) (by rw [rest]; rfl)
    | advance busy moves =>
        rw [World.afterTurn_shared, busy] at hprogress
        exact hattentive.afterTurn busy moves fun howns =>
          (hprogress.owner? howns).imp_right fun hnew => ⟨hnew.1, hnew.2.1⟩
    | wake waits =>
        exact hattentive.setThread (by rw [waits]; rfl) (Thread.not_asleep_claiming _ _)
          (by rw [waits]; rfl)
    | panic fails =>
        obtain ⟨hbefore, hafter, hwakes⟩ := Thread.awaits?_panic fails
        exact hattentive.setThread (hafter.trans hbefore.symm)
          (Thread.not_asleep_of_awaits? hafter) hwakes

end KernelFront.Cache
