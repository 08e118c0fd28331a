import KernelFront.Proofs.Cache.Wakeup

/-! # No deadlock among compilations

Following the waits from a thread leads to a thread that can go on with its own compilation, or to a
key without an owner. In the second case whoever waits for the key has been woken or is going to be:
some thread is about to wake it, can take its next step at any time, and no step of another thread
changes that.
-/

namespace KernelFront.Cache

variable {setting : Inference.Setting}

/-- A thread can take its next step. -/
def World.CanAdvance (setting : Inference.Setting) (world : World) (me : ThreadId) : Prop :=
  ∃ activity callers turn, world.threads me = .active activity callers ∧
    advance setting me world.shared callers activity = some turn

/-- Steps one after the other, with the thread that took each. -/
inductive Moves (setting : Inference.Setting) (start : World) : List ThreadId → World → Prop where
  | nil : Moves setting start [] start
  | step {before after : World} {me : ThreadId} {movers : List ThreadId} {events : List Event}
      (past : Moves setting start movers before) (next : Step setting before me events after) :
      Moves setting start (movers ++ [me]) after

/-- Whatever steps are taken, in whatever order: after a number of steps of the waker at the latest
the sleeper has been awake, and until then the waker can always take its next step. -/
def World.WokenBy (setting : Inference.Setting) (world : World) (sleeper waker : ThreadId)
    (steps : Nat) : Prop :=
  ∀ movers later, Moves setting world movers later →
    (∃ earlier middle rest, movers = earlier ++ rest ∧ Moves setting world earlier middle ∧
      Moves setting middle rest later ∧ ∀ key, ¬ (middle.threads sleeper).Asleep key) ∨
    movers.count waker < steps ∧ later.CanAdvance setting waker

/-- Every thread can advance unless it is at rest or sleeps. -/
theorem World.canAdvance {world : World} {me : ThreadId} (hbusy : world.threads me ≠ .idle)
    (hawake : ∀ key, ¬ (world.threads me).Asleep key) : world.CanAdvance setting me := by
  cases hthread : world.threads me with
  | idle => exact absurd hthread hbusy
  | active activity callers =>
      have hmoves : ∃ turn, advance setting me world.shared callers activity = some turn := by
        cases activity with
        | asleep key => exact absurd ⟨callers, hthread⟩ (hawake key)
        | recording name discarded =>
            by_cases hknown : name ∈ world.shared.redefined <;> simp [advance, hknown]
        | seeking key =>
            by_cases hknown : world.shared.isRegistered key.name <;> simp [advance, hknown]
        | claiming key =>
            simp only [advance]
            split <;> exact ⟨_, rfl⟩
        | opening name signature =>
            simp only [advance]
            split <;> exact ⟨_, rfl⟩
        | unwinding =>
            rcases callers with _ | ⟨⟨_ | _, _⟩, _⟩ <;> exact ⟨_, rfl⟩
        | _ => exact ⟨_, rfl⟩
      obtain ⟨turn, hturn⟩ := hmoves
      exact ⟨activity, callers, turn, hthread, hturn⟩

/-- The steps of the other threads leave a thread that is about to wake them as it is. -/
theorem Step.wakesIn?_of_ne {world next : World} {me waker : ThreadId} {events : List Event}
    (hstep : Step setting world me events next) (hne : waker ≠ me) :
    (next.threads waker).wakesIn? = (world.threads waker).wakesIn? := by
  cases hstep with
  | «begin» request rest => simp [World.setThread, hne]
  | advance busy moves => rw [World.wakesIn?_afterTurn, if_neg hne]
  | wake waits => simp [World.setThread, hne]
  | panic fails => simp [World.setThread, hne]

/-- The steps of a thread that is about to wake the others bring it nearer to that, or do it. -/
theorem Step.wakesIn? {world next : World} {me : ThreadId} {events : List Event} {steps : Nat}
    (hstep : Step setting world me events next)
    (hwakes : (world.threads me).wakesIn? = some steps) :
    (∀ thread key, ¬ (next.threads thread).Asleep key) ∨
      ∃ fewer, fewer < steps ∧ (next.threads me).wakesIn? = some fewer := by
  cases hstep with
  | «begin» request rest => simp [rest, Thread.wakesIn?] at hwakes
  | advance busy moves =>
      rw [busy] at hwakes
      obtain hnotifies | ⟨fewer, hfewer, hthread⟩ := wakesIn?_advance moves hwakes
      · exact .inl fun thread key hasleep =>
          nomatch hnotifies.symm.trans (World.asleep_afterTurn hasleep).1
      · exact .inr ⟨fewer, hfewer, by rw [World.wakesIn?_afterTurn, if_pos rfl, hthread]⟩
  | wake waits => simp [waits, Thread.wakesIn?] at hwakes
  | panic fails => simp [(Thread.awaits?_panic fails).2.2] at hwakes

theorem Thread.wakesIn?_pos {thread : Thread} {steps : Nat}
    (hwakes : thread.wakesIn? = some steps) : 0 < steps ∧ steps ≤ 2 := by
  unfold wakesIn? at hwakes
  split at hwakes <;> cases hwakes <;> omega

/-- A thread that is on the way to wake the others wakes every thread that sleeps. -/
theorem World.wokenBy {world : World} {sleeper waker : ThreadId}
    (hwakes : (world.threads waker).wakesIn?.isSome) : world.WokenBy setting sleeper waker 2 := by
  obtain ⟨bound, hbound⟩ := Option.isSome_iff_exists.mp hwakes
  intro movers later hmoves
  -- Until it wakes the others, the steps it took and those it still needs are at most two.
  suffices hsuffices : (∃ earlier middle rest, movers = earlier ++ rest ∧
      Moves setting world earlier middle ∧ Moves setting middle rest later ∧
      ∀ key, ¬ (middle.threads sleeper).Asleep key) ∨
      ∃ steps, (later.threads waker).wakesIn? = some steps ∧ movers.count waker + steps ≤ 2 by
    refine hsuffices.imp_right ?_
    rintro ⟨steps, hsteps, hcount⟩
    have hpos := Thread.wakesIn?_pos hsteps
    refine ⟨by omega, World.canAdvance ?_ ?_⟩
    · intro hidle
      simp [hidle, Thread.wakesIn?] at hsteps
    · intro key hasleep
      simp [hasleep.wakesIn?] at hsteps
  induction hmoves with
  | nil => exact .inr ⟨bound, hbound, by simpa using (Thread.wakesIn?_pos hbound).2⟩
  | @step before after me movers events past next ih =>
      obtain ⟨earlier, middle, rest, rfl, hearlier, hrest, hawake⟩ | ⟨steps, hsteps, hcount⟩ := ih
      · exact .inl ⟨earlier, middle, rest ++ [me], List.append_assoc .., hearlier,
          hrest.step next, hawake⟩
      · by_cases hme : waker = me
        · subst hme
          obtain hawake | ⟨fewer, hfewer, hthread⟩ := next.wakesIn? hsteps
          · exact .inl ⟨_, after, [], (List.append_nil _).symm, past.step next, .nil,
              hawake sleeper⟩
          · refine .inr ⟨fewer, hthread, ?_⟩
            simp only [List.count_append, List.count_singleton_self]
            omega
        · refine .inr ⟨steps, (next.wakesIn?_of_ne hme).trans hsteps, ?_⟩
          have hother : List.count waker [me] = 0 := by simp [Ne.symm hme]
          rw [List.count_append, hother]
          omega

/-- In every reachable world the graph of waits is acyclic, and every thread that sleeps is in it.
From every thread that waits, the waits lead to a thread that waits for nothing, owns a key in
flight and can take its next step, or to a thread that waits for a key not in flight; this one is
awake and about to look at the key again, or sleeps and is going to be woken whatever happens. -/
theorem no_deadlock {world : World} (hreach : Reachable setting world) :
    (∀ thread, ¬ Relation.TransGen world.shared.BlockedOn thread thread) ∧
    (∀ thread key, (world.threads thread).Asleep key →
      world.shared.waiting.get? thread = some key) ∧
    ∀ thread key, world.shared.waiting.get? thread = some key →
      ∃ last, Relation.ReflTransGen world.shared.BlockedOn thread last ∧
        ((world.shared.waiting.get? last = none ∧
            (∃ owned, world.shared.owner? owned = some last) ∧ world.CanAdvance setting last) ∨
          ∃ awaited, world.shared.waiting.get? last = some awaited ∧
            world.shared.owner? awaited = none ∧
            ((∃ callers, world.threads last = .active (.claiming awaited) callers) ∨
              (world.threads last).Asleep awaited ∧
                ∃ waker, world.WokenBy setting last waker 2)) := by
  have hattentive := hreach.attentive
  obtain ⟨rank, hranks⟩ := hattentive.ranks
  refine ⟨hranks.acyclic, fun thread key => hattentive.recorded, ?_⟩
  intro thread key hwaits
  obtain ⟨last, hpath, hlast⟩ := hranks.exists_last thread
  refine ⟨last, hpath, ?_⟩
  cases hawaited : world.shared.waiting.get? last with
  | none =>
      left
      -- The last wait is for a key of this thread, so the thread is in the middle of a compilation.
      obtain rfl | ⟨before, _, owned, _, howner⟩ := Relation.ReflTransGen.cases_tail hpath
      · exact nomatch hawaited.symm.trans hwaits
      · obtain ⟨frame, hframe, _⟩ := hreach.owned last owned howner
        refine ⟨rfl, ⟨owned, howner⟩, World.canAdvance ?_ ?_⟩
        · intro hidle
          rw [hidle] at hframe
          cases hframe
        · intro key hasleep
          exact nomatch hawaited.symm.trans (hattentive.recorded hasleep)
  | some awaited =>
      right
      -- The waits end here, so nobody owns the key that is waited for.
      have hfree : world.shared.owner? awaited = none := by
        cases howner : world.shared.owner? awaited with
        | none => rfl
        | some owner => exact absurd ⟨awaited, hawaited, howner⟩ (hlast owner)
      refine ⟨awaited, rfl, hfree, ?_⟩
      have hawaits := hattentive.awaits hawaited
      unfold Thread.awaits? at hawaits
      split at hawaits
      · rename_i found callers hthread
        cases hawaits
        exact .inl ⟨callers, hthread⟩
      · rename_i found callers hthread
        cases hawaits
        have hasleep : (world.threads last).Asleep awaited := ⟨callers, hthread⟩
        obtain ⟨waker, hwaker⟩ := hattentive.waker hasleep hfree
        exact .inr ⟨hasleep, waker, World.wokenBy hwaker⟩
      · cases hawaits

/-- A thread compiles a function, a second one sleeps on it, and a third one discards its slot. -/
def overslept : List (ThreadId × Option Request) :=
  [(0, some (.register staleSource)), (0, none), (0, some (.compile redefinedKey))] ++ moves 0 5 ++
    [(1, some (.compile redefinedKey))] ++ moves 1 2 ++ [(2, some (.register freshSource))] ++
    moves 2 2

/-- A thread that sleeps on a key that was discarded meanwhile is going to be woken. -/
theorem no_deadlock_discarded :
    ((World.after usualSetting overslept).threads 1).Asleep redefinedKey ∧
      (World.after usualSetting overslept).shared.owner? redefinedKey = none ∧
      ∃ waker, (World.after usualSetting overslept).WokenBy usualSetting 1 waker 2 := by
  obtain ⟨_, hrecorded, hwaits⟩ :=
    no_deadlock (@World.after_reachable usualSetting overslept)
  have hasleep : ((World.after usualSetting overslept).threads 1).Asleep redefinedKey :=
    Thread.sleepsOn?_eq_some.mp (by decide +kernel)
  have hfree : (World.after usualSetting overslept).shared.owner? redefinedKey = none := by
    decide +kernel
  refine ⟨hasleep, hfree, ?_⟩
  have hwaiting := hrecorded 1 redefinedKey hasleep
  obtain ⟨last, hpath, hlast⟩ := hwaits 1 redefinedKey hwaiting
  obtain rfl | ⟨next, ⟨key, hkey, howner⟩, _⟩ := Relation.ReflTransGen.cases_head hpath
  · obtain ⟨hnone, _⟩ | ⟨awaited, _, _, ⟨callers, hclaiming⟩ | ⟨_, hwoken⟩⟩ := hlast
    · exact nomatch hnone.symm.trans hwaiting
    · obtain ⟨_, hthread⟩ := hasleep
      exact nomatch hclaiming.symm.trans hthread
    · exact hwoken
  · cases Option.some.inj (hkey.symm.trans hwaiting)
    exact nomatch howner.symm.trans hfree

end KernelFront.Cache
