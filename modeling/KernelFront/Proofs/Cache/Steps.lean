import KernelFront.Proofs.Cache.Stack

/-! # What one step can do

`Progress` lists everything that a step of a thread does to its own stack, to the slots and to the
sources. A step leaves the stacks of all other threads alone, so what holds of every reachable world
is proved case by case over `Progress`.
-/

namespace KernelFront.Cache

variable {setting : Inference.Setting}

/-- The compilation of a key from a source. -/
def compilation (setting : Inference.Setting) (source : FunctionDef) (key : Key) : Passes :=
  (source.compile setting ⟨key.args, none⟩).run

/-- The entry for a result of a compilation. -/
def Claimed.entry (claimed : Claimed) (result : Except TypeError Compiled) : Entry :=
  result.map fun compiled => ⟨claimed.run, compiled⟩

/-- How the innermost compilation of a thread gets on while its slot stays as it is. -/
inductive StageMove (setting : Inference.Setting) (shared : Shared) (claimed : Claimed) :
    Stage → Stage → Prop where
  | read {source : FunctionDef} (hsource : shared.sources.get? claimed.key.name = some source) :
      StageMove setting shared claimed .reading (.running (compilation setting source claimed.key))
  | missing {entry : Entry} (hsource : shared.sources.get? claimed.key.name = none) :
      StageMove setting shared claimed .reading (.settling entry)
  | report {message : Message} {next : Passes} :
      StageMove setting shared claimed (.running (.report message next)) (.running next)
  | ask {callee : String} {args : List Ty} {next : Resolution → Passes} :
      StageMove setting shared claimed (.running (.ask callee args next)) (.suspended next)
  | resume {next : Resolution → Passes} (answer : Resolution) :
      StageMove setting shared claimed (.suspended next) (.running (next answer))
  | finish {result : Except TypeError Compiled} :
      StageMove setting shared claimed (.running (.done result)) (.settling (claimed.entry result))
  | panic {stage : Stage} : StageMove setting shared claimed stage .failed

/-- A stack whose innermost compilation got on, or nothing happened. -/
inductive StackMove (setting : Inference.Setting) (shared : Shared) :
    List Frame → List Frame → Prop where
  | stay {frames : List Frame} : StackMove setting shared frames frames
  | step {claimed : Claimed} {stage next : Stage} {rest : List Frame}
      (hmove : StageMove setting shared claimed stage next) :
      StackMove setting shared (⟨claimed, stage⟩ :: rest) (⟨claimed, next⟩ :: rest)

/-- What a step of a thread, which may be about to look at a key, does to its stack, to the slots
and to the sources. -/
inductive Progress (setting : Inference.Setting) (me : ThreadId) (before : Shared)
    (awaited : Option Key) : List Frame → List Frame → Shared → Prop where
  | work {stack next : List Frame} {after : Shared} (hmove : StackMove setting before stack next)
      (hslots : after.slots = before.slots) (hsources : after.sources = before.sources)
      (hcompiles : before.compiles ≤ after.compiles) :
      Progress setting me before awaited stack next after
  | replace {after : Shared} (func : FunctionDef) (hslots : after.slots = before.slots)
      (hsources : after.sources = before.sources.insert func.name func)
      (hcompiles : after.compiles = before.compiles) :
      Progress setting me before awaited [] [] after
  | discard (name : String) : Progress setting me before awaited [] [] (before.discard name)
  | grant {stack : List Frame} {after : Shared} (key : Key) (hawaited : awaited = some key)
      (hfree : before.slots.get? key = none)
      (hslots : after.slots = before.slots.insert key (.inFlight me))
      (hsources : after.sources = before.sources)
      (hcompiles : after.compiles = before.compiles + 1) :
      Progress setting me before awaited stack
        (⟨⟨key, before.compiles + 1⟩, .reading⟩ :: stack) after
  | settle {rest : List Frame} (claimed : Claimed) (entry : Entry) :
      Progress setting me before awaited (⟨claimed, .settling entry⟩ :: rest)
        (⟨claimed, .settled⟩ :: rest)
        (before.settle me claimed.key entry)
  | release {rest : List Frame} {stage : Stage} (claimed : Claimed) :
      Progress setting me before awaited (⟨claimed, stage⟩ :: rest) (⟨claimed, .settled⟩ :: rest)
        (before.release me claimed.key)
  | leave {rest next : List Frame} (claimed : Claimed)
      (hmove : StackMove setting before rest next) :
      Progress setting me before awaited (⟨claimed, .settled⟩ :: rest) next before

/-! ## A look at a key -/

/-- What a thread that looks at a key does next. It takes a free key, hands over the outcome of a
finished one, and falls asleep on a key that is being compiled unless it would wait for itself. -/
inductive LookTurn (me : ThreadId) (shared : Shared) (key : Key) (callers : List Caller) :
    Turn → Prop where
  | grant (hfree : shared.slots.get? key = none) :
      LookTurn me shared key callers {
        thread := .active (.reading ⟨key, shared.compiles + 1⟩) callers
        shared := { (shared.stopWaiting me).countRun with
          slots := shared.slots.insert key (.inFlight me) }
        events := [.claimed key] }
  | ready {entry : Entry} (hdone : shared.slots.get? key = some (.done entry)) :
      LookTurn me shared key callers {
        thread := (deliver key (some entry) callers).1
        shared := shared.stopWaiting me
        events := (deliver key (some entry) callers).2 }
  | cycle {owner : ThreadId} (hslot : shared.slots.get? key = some (.inFlight owner))
      (hwaits : shared.waitsOn owner me) :
      LookTurn me shared key callers {
        thread := (deliver key none callers).1
        shared := shared.stopWaiting me
        events := (deliver key none callers).2 }
  | wait {owner : ThreadId} (hslot : shared.slots.get? key = some (.inFlight owner))
      (hfree : ¬ shared.waitsOn owner me) :
      LookTurn me shared key callers {
        thread := .active (.asleep key) callers
        shared := { shared with waiting := shared.waiting.insert me key } }

theorem lookTurn_of_advance {me : ThreadId} {shared : Shared} {key : Key} {callers : List Caller}
    {turn : Turn} (hmoves : advance setting me shared callers (.claiming key) = some turn) :
    LookTurn me shared key callers turn := by
  simp only [advance, Shared.claim] at hmoves
  cases hslot : shared.slots.get? key with
  | none =>
      simp only [hslot, Option.some.injEq] at hmoves
      subst turn
      exact .grant hslot
  | some slot =>
      cases slot with
      | done entry =>
          simp only [hslot, Option.some.injEq] at hmoves
          subst turn
          exact .ready hslot
      | inFlight owner =>
          -- A cycle of waits is answered at once; otherwise the thread goes to sleep.
          by_cases hcycle : shared.waitsOn owner me <;>
            simp only [hslot, hcycle, if_true, Bool.false_eq_true, if_false,
              Option.some.injEq] at hmoves <;> subst turn
          · exact .cycle hslot hcycle
          · exact .wait hslot hcycle

/-! ## Every step of a thread makes progress of this kind -/

theorem stackMove_resume {shared : Shared} (caller : Caller) (callers : List Caller)
    (answer : Resolution) :
    StackMove setting shared ((caller :: callers).filterMap Caller.frame?)
      (Thread.active (.running caller.claimed (caller.next answer)) callers).frames := by
  obtain ⟨claimed, next⟩ := caller
  cases claimed with
  | none => exact .stay
  | some claimed => exact .step (.resume answer)

theorem stackMove_deliver {shared : Shared} (key : Key) (outcome : Option Entry)
    (callers : List Caller) :
    StackMove setting shared (callers.filterMap Caller.frame?)
      (deliver key outcome callers).1.frames := by
  cases callers with
  | nil => exact .stay
  | cons caller callers => exact stackMove_resume caller callers _

theorem stackMove_deliverUnknown {shared : Shared} (key : Key) (callers : List Caller) :
    StackMove setting shared (callers.filterMap Caller.frame?)
      (deliverUnknown key callers).1.frames := by
  cases callers with
  | nil => exact .stay
  | cons caller callers => exact stackMove_resume caller callers _

theorem stackMove_advancePasses {shared : Shared} {claimed : Option Claimed}
    {callers : List Caller} {passes : Passes}
    (hnested : (Thread.active (.running claimed passes) callers).Nested) :
    StackMove setting shared (Thread.active (.running claimed passes) callers).frames
      (advancePasses claimed callers passes).1.frames := by
  cases claimed with
  | none =>
      obtain rfl := hnested.2 trivial
      cases passes with
      | done result => cases result <;> exact .stay
      | report message next => exact .stay
      | ask callee args next => exact .stay
  | some claimed =>
      cases passes with
      | done result => exact .step .finish
      | report message next => exact .step .report
      | ask callee args next => exact .step .ask

theorem progress_advance {me : ThreadId} {shared : Shared} {callers : List Caller}
    {activity : Activity} {turn : Turn} (hnested : (Thread.active activity callers).Nested)
    (hmoves : advance setting me shared callers activity = some turn) :
    Progress setting me shared (Thread.active activity callers).awaits?
      (Thread.active activity callers).frames turn.thread.frames turn.shared := by
  cases activity with
  | replacing func =>
      obtain rfl := hnested.2 trivial
      simp only [advance, Option.some.injEq] at hmoves
      subst turn
      split <;> exact .replace func rfl rfl rfl
  | discarding name =>
      obtain rfl := hnested.2 trivial
      cases hmoves
      exact .discard name
  | announcing name discarded =>
      cases hmoves
      exact .work .stay rfl rfl Nat.le.refl
  | recording name discarded =>
      obtain rfl := hnested.2 trivial
      simp only [advance] at hmoves
      split at hmoves <;> cases hmoves <;> exact .work .stay rfl rfl Nat.le.refl
  | seeking key =>
      simp only [advance] at hmoves
      split at hmoves <;> cases hmoves
      · exact .work .stay rfl rfl Nat.le.refl
      · exact .work (stackMove_deliverUnknown key callers) rfl rfl Nat.le.refl
  | claiming key =>
      cases lookTurn_of_advance hmoves with
      | grant hfree => exact .grant key rfl hfree rfl rfl rfl
      | ready => exact .work (stackMove_deliver key _ callers) rfl rfl Nat.le.refl
      | cycle => exact .work (stackMove_deliver key _ callers) rfl rfl Nat.le.refl
      | wait => exact .work .stay rfl rfl Nat.le.refl
  | asleep key => cases hmoves
  | reading claimed =>
      simp only [advance, Option.some.injEq] at hmoves
      subst turn
      cases hsource : shared.sources.get? claimed.key.name with
      | none => exact .work (.step (.missing hsource)) rfl rfl Nat.le.refl
      | some source => exact .work (.step (.read hsource)) rfl rfl Nat.le.refl
  | opening name signature =>
      obtain rfl := hnested.2 trivial
      simp only [advance] at hmoves
      split at hmoves <;> cases hmoves <;> exact .work .stay rfl rfl Nat.le.refl
  | counting source signature =>
      obtain rfl := hnested.2 trivial
      cases hmoves
      exact .work .stay rfl rfl (Nat.le_succ _)
  | running claimed passes =>
      cases hmoves
      exact .work (stackMove_advancePasses hnested) rfl rfl Nat.le.refl
  | settling claimed entry =>
      cases hmoves
      exact .settle claimed entry
  | releasing claimed outcome =>
      cases hmoves
      cases outcome with
      | none => exact .release claimed
      | some entry => exact .release claimed
  | notifying claimed outcome =>
      cases outcome with
      | none =>
          cases hmoves
          exact .leave claimed .stay
      | some entry =>
          cases hmoves
          exact .leave claimed (stackMove_deliver claimed.key _ callers)
  | unwinding =>
      rcases callers with _ | ⟨⟨_ | claimed, next⟩, callers⟩
      · cases hmoves
        exact .work .stay rfl rfl Nat.le.refl
      · cases hmoves
        exact .work .stay rfl rfl Nat.le.refl
      · cases hmoves
        exact .work (.step .panic) rfl rfl Nat.le.refl

/-- A thread gets to look at a key only if there is a function of that name. -/
theorem awaits?_advance {me : ThreadId} {shared : Shared} {callers : List Caller}
    {activity : Activity} {turn : Turn} {key : Key}
    (hmoves : advance setting me shared callers activity = some turn)
    (hawaits : turn.thread.awaits? = some key) :
    activity = .claiming key ∨ activity = .seeking key ∧ shared.isRegistered key.name := by
  have hdeliver : ∀ asked outcome, (deliver asked outcome callers).1.awaits? = none := by
    intro asked outcome
    cases callers <;> rfl
  have hunknown : ∀ asked, (deliverUnknown asked callers).1.awaits? = none := by
    intro asked
    cases callers <;> rfl
  cases activity with
  | replacing func =>
      simp only [advance, Option.some.injEq] at hmoves
      subst turn
      split at hawaits <;> cases hawaits
  | recording name discarded =>
      simp only [advance] at hmoves
      split at hmoves <;> cases hmoves <;> cases hawaits
  | seeking asked =>
      simp only [advance] at hmoves
      split at hmoves <;> cases hmoves
      · cases hawaits
        exact .inr ⟨rfl, ‹_›⟩
      · simp [hunknown] at hawaits
  | claiming asked =>
      cases lookTurn_of_advance hmoves with
      | grant => cases hawaits
      | ready => simp [hdeliver] at hawaits
      | cycle => simp [hdeliver] at hawaits
      | wait =>
          cases hawaits
          exact .inl rfl
  | asleep asked => cases hmoves
  | reading claimed =>
      simp only [advance, Option.some.injEq] at hmoves
      subst turn
      dsimp only at hawaits
      cases hsource : shared.sources.get? claimed.key.name <;>
        simp [hsource, Thread.awaits?] at hawaits
  | opening name signature =>
      simp only [advance] at hmoves
      split at hmoves <;> cases hmoves <;> cases hawaits
  | running claimed passes =>
      cases hmoves
      cases passes with
      | done result => cases claimed <;> cases result <;> cases hawaits
      | report message next => cases hawaits
      | ask callee args next => cases hawaits
  | notifying claimed outcome =>
      cases outcome with
      | none =>
          cases hmoves
          cases hawaits
      | some entry =>
          cases hmoves
          cases (hdeliver claimed.key (some entry)).symm.trans hawaits
  | unwinding =>
      rcases callers with _ | ⟨⟨_ | _, _⟩, _⟩ <;> cases hmoves <;> cases hawaits
  | discarding _ | announcing _ _ | counting _ _ | settling _ _ | releasing _ _ =>
      cases hmoves
      cases hawaits

/-! ## Steps of a world -/

theorem World.afterTurn_shared (world : World) (me : ThreadId) (turn : Turn) :
    (world.afterTurn me turn).shared = turn.shared := by
  unfold World.afterTurn
  split <;> rfl

theorem World.afterTurn_threads (world : World) (me : ThreadId) (turn : Turn) (other : ThreadId) :
    (world.afterTurn me turn).threads other =
      let thread := if other = me then turn.thread else world.threads other
      if turn.notifies then thread.wake else thread := by
  unfold World.afterTurn
  split <;> rfl

theorem Step.frames_of_ne {world next : World} {me other : ThreadId} {events : List Event}
    (hstep : Step setting world me events next) (hne : other ≠ me) :
    (next.threads other).frames = (world.threads other).frames := by
  cases hstep with
  | «begin» request rest => simp [World.setThread, hne]
  | advance busy moves =>
      rw [World.afterTurn_threads]
      simp only [hne, if_false]
      split <;> simp
  | wake waits => simp [World.setThread, hne]
  | panic fails => simp [World.setThread, hne]

theorem Step.nested {world next : World} {me : ThreadId} {events : List Event}
    (hstep : Step setting world me events next) (hnested : ∀ thread, (world.threads thread).Nested)
    (other : ThreadId) : (next.threads other).Nested := by
  have hother := hnested other
  cases hstep with
  | «begin» request rest =>
      by_cases hme : other = me
      · simpa [World.setThread, hme] using Thread.nested_start request
      · simpa [World.setThread, hme] using hother
  | @advance activity callers turn busy moves =>
      rw [World.afterTurn_threads]
      have hthread : (if other = me then turn.thread else world.threads other).Nested := by
        by_cases hme : other = me
        · rw [if_pos hme]
          exact nested_advance (busy ▸ hnested me) moves
        · rwa [if_neg hme]
      simp only
      split
      · exact hthread.wake
      · exact hthread
  | wake waits =>
      by_cases hme : other = me
      · have hasleep := hnested me
        rw [waits] at hasleep
        simpa [World.setThread, hme, Thread.wake] using hasleep.wake
      · simpa [World.setThread, hme] using hother
  | panic fails =>
      by_cases hme : other = me
      · simpa [World.setThread, hme] using (hnested me).panic fails
      · simpa [World.setThread, hme] using hother

theorem Step.awaits? {world next : World} {me other : ThreadId} {events : List Event} {key : Key}
    (hstep : Step setting world me events next)
    (hawaits : (next.threads other).awaits? = some key) :
    (world.threads other).awaits? = some key ∨ world.shared.isRegistered key.name := by
  cases hstep with
  | «begin» request rest =>
      by_cases hme : other = me
      · cases request <;> simp [World.setThread, hme, Thread.start, Thread.awaits?] at hawaits
      · exact .inl (by simpa [World.setThread, hme] using hawaits)
  | advance busy moves =>
      rw [World.afterTurn_threads] at hawaits
      by_cases hme : other = me
      · simp only [hme, if_true] at hawaits
        obtain rfl | ⟨rfl, hregistered⟩ := awaits?_advance moves
          (by split at hawaits <;> simpa using hawaits)
        · exact .inl (by rw [hme, busy]; rfl)
        · exact .inr hregistered
      · simp only [hme, if_false] at hawaits
        exact .inl (by split at hawaits <;> simpa using hawaits)
  | @wake asked callers waits =>
      by_cases hme : other = me
      · rw [hme, waits]
        have hclaiming : (Thread.active (.claiming asked) callers).awaits? = some key := by
          simpa [World.setThread, hme] using hawaits
        exact .inl hclaiming
      · exact .inl (by simpa [World.setThread, hme] using hawaits)
  | panic fails =>
      by_cases hme : other = me
      · unfold Thread.panic? at fails
        split at fails <;> cases fails <;>
          simp [World.setThread, hme, Thread.awaits?] at hawaits
      · exact .inl (by simpa [World.setThread, hme] using hawaits)

theorem Step.progress {world next : World} {me : ThreadId} {events : List Event}
    (hstep : Step setting world me events next) (hnested : (world.threads me).Nested) :
    Progress setting me world.shared (world.threads me).awaits? (world.threads me).frames
      (next.threads me).frames next.shared := by
  cases hstep with
  | «begin» request rest =>
      have hframes : (Thread.start request).frames = [] := by cases request <;> rfl
      simp only [World.setThread, if_true, rest, hframes]
      exact .work .stay rfl rfl Nat.le.refl
  | @advance activity callers turn busy moves =>
      have hframes : ((world.afterTurn me turn).threads me).frames = turn.thread.frames := by
        rw [World.afterTurn_threads]
        simp only [if_true]
        split
        · exact Thread.frames_wake _
        · rfl
      rw [hframes, World.afterTurn_shared, busy]
      exact progress_advance (busy ▸ hnested) moves
  | wake waits =>
      simp only [World.setThread, if_true, waits]
      exact .work .stay rfl rfl Nat.le.refl
  | panic fails =>
      simp only [World.setThread, if_true]
      unfold Thread.panic? at fails
      split at fails <;> cases fails
      · rename_i hthread
        rw [hthread]
        exact .work (.step .panic) rfl rfl Nat.le.refl
      · rename_i hthread
        rw [hthread]
        exact .work .stay rfl rfl Nat.le.refl

end KernelFront.Cache
